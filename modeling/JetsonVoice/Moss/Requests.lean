import JetsonVoice.Moss.Worker

/-!
# The requests in the hands of the MOSS worker

A request that the dispatch thread has accepted is about to be queued, on the
queue, or with a worker thread. The lists of such requests differ only in which
stages of a worker thread they count.
-/

namespace JetsonVoice.Moss

open Foundation Protocol

/-- The request the dispatch thread is about to queue. -/
def Main.task? : Main → Option Task
  | .enqueue task => some task
  | _ => none

/-- The request a worker thread is handling. -/
def Thread.task? : Thread → Option Task
  | .running task _ _ _ => some task
  | _ => none

/-- The accepted requests no worker thread has picked up. -/
def Worker.unpicked (w : Worker) : List Task := w.main.task?.toList ++ w.queue

/-- The requests not picked up and those `f` reads off the worker threads. -/
def Worker.requestsBy (w : Worker) (f : Thread → Option Task) : List Task :=
  w.unpicked ++ w.threads.filterMap f

/-- The accepted requests that have not finished. -/
def Worker.pending (w : Worker) : List Task := w.requestsBy Thread.task?

section Requests
variable {w w' : Worker} {f : Thread → Option Task}

theorem requestsBy_congr (hu : w'.unpicked = w.unpicked) (ht : w'.threads = w.threads) :
    w'.requestsBy f = w.requestsBy f := by
  rw [Worker.requestsBy, hu, ht, Worker.requestsBy]

/-- Moving one thread exchanges what is read off it. -/
theorem requestsBy_setThread {i : Nat} {t : Thread} (t' : Thread) (h : w.threads[i]? = some t) :
    ((f t).toList ++ (w.setThread i t').requestsBy f).Perm ((f t').toList ++ w.requestsBy f) := by
  have hset := filterMap_set_perm f (b := t') h
  calc
    ((f t).toList ++ (w.unpicked ++ (w.threads.set i t').filterMap f)).Perm
      (w.unpicked ++ ((f t).toList ++ (w.threads.set i t').filterMap f)) :=
        List.perm_append_comm_assoc _ _ _
    List.Perm _ (w.unpicked ++ ((f t').toList ++ w.threads.filterMap f)) := hset.append_left _
    List.Perm _ ((f t').toList ++ w.requestsBy f) := List.perm_append_comm_assoc _ _ _

/-- A thread off which the same is read keeps the requests. -/
theorem requestsBy_setThread_same {i : Nat} {t : Thread} (t' : Thread)
    (h : w.threads[i]? = some t) (ht : f t' = f t) :
    ((w.setThread i t').requestsBy f).Perm (w.requestsBy f) := by
  have hset := requestsBy_setThread (f := f) t' h
  rw [ht] at hset
  exact (List.perm_append_left_iff _).mp hset

theorem trip_frame (id : String) (reading : w.main = .reading) :
    (trip w id).unpicked = w.unpicked ∧ (trip w id).threads = w.threads ∧
      (trip w id).controls = w.controls ∧ (trip w id).accepted = w.accepted ∧
      (trip w id).out = w.out := by
  simp only [trip]
  split <;> simp [Worker.unpicked, Main.task?, reading]

theorem unregister_frame (w : Worker) (id : String) (control : Nat) :
    (unregister w id control).unpicked = w.unpicked ∧
      (unregister w id control).threads = w.threads ∧
      (unregister w id control).accepted = w.accepted ∧
      (unregister w id control).out = w.out := by
  simp only [unregister]
  split <;> exact ⟨rfl, rfl, rfl, rfl⟩

theorem apply_frame (w : Worker) (control : Nat) (effect : Effect) :
    (w.apply control effect).unpicked = w.unpicked ∧
      (w.apply control effect).threads = w.threads ∧
      (w.apply control effect).controls = w.controls ∧
      (w.apply control effect).accepted = w.accepted := by
  cases effect <;> exact ⟨rfl, rfl, rfl, rfl⟩

theorem unpicked_register (id : String) (item : Json) (reading : w.main = .reading) :
    (register w id item).unpicked = ⟨item, w.cancelled.length⟩ :: w.unpicked := by
  simp [Worker.unpicked, Main.task?, register, reading]

theorem unpicked_enqueue {task : Task} (hm : w.main = .enqueue task) :
    ({ w with queue := w.queue ++ [task], main := .reading } : Worker).unpicked.Perm
      w.unpicked := by
  simp only [Worker.unpicked, Main.task?, hm, Option.toList_none, Option.toList_some,
    List.nil_append]
  exact List.perm_append_comm

theorem unpicked_pickUp {task : Task} {queue : List Task} (hq : w.queue = task :: queue) :
    w.unpicked.Perm (task :: ({ w with queue := queue } : Worker).unpicked) := by
  simp only [Worker.unpicked, hq]
  exact List.perm_middle

/-- Picking a request up only moves it, when it counts at its first stage. -/
theorem requestsBy_pickUp {i : Nat} {task : Task} {queue : List Task} (id : String) (t0 : Int)
    (hi : w.threads[i]? = some .waiting) (hq : w.queue = task :: queue)
    (hwait : f .waiting = none) (hstart : f (.running task id t0 .start) = some task) :
    (({ w with queue := queue }.setThread i (.running task id t0 .start)).requestsBy f).Perm
      (w.requestsBy f) := by
  have hi' : ({ w with queue := queue } : Worker).threads[i]? = some .waiting := hi
  have hset := requestsBy_setThread (f := f) (.running task id t0 .start) hi'
  simp only [hwait, hstart, Option.toList_none, Option.toList_some, List.nil_append,
    List.singleton_append] at hset
  exact hset.trans ((unpicked_pickUp hq).symm.append_right _)

/-- A thread that goes back to waiting gives up its request. -/
theorem requestsBy_finish {i : Nat} {task : Task} {id : String} {t0 : Int} {phase : Phase}
    (hi : w.threads[i]? = some (.running task id t0 phase)) (hwait : f .waiting = none) :
    ((f (.running task id t0 phase)).toList ++
      ((unregister w id task.control).setThread i .waiting).requestsBy f).Perm
      (w.requestsBy f) := by
  obtain ⟨hu, ht, -⟩ := unregister_frame w id task.control
  have hi' : (unregister w id task.control).threads[i]? = some (.running task id t0 phase) := by
    rwa [ht]
  have hset := requestsBy_setThread (f := f) .waiting hi'
  simp only [hwait, Option.toList_none, List.nil_append] at hset
  exact hset.trans (.of_eq (requestsBy_congr hu ht))

/-- A step of a request exchanges what is read off its thread. -/
theorem requestsBy_handle {i : Nat} {task : Task} {id : String} {t0 : Int} {phase : Phase}
    (next : Phase) (effect : Effect) (hi : w.threads[i]? = some (.running task id t0 phase)) :
    ((f (.running task id t0 phase)).toList ++
      ((w.apply task.control effect).setThread i (.running task id t0 next)).requestsBy f).Perm
      ((f (.running task id t0 next)).toList ++ w.requestsBy f) := by
  obtain ⟨hu, ht, -⟩ := apply_frame w task.control effect
  have hi' : (w.apply task.control effect).threads[i]? = some (.running task id t0 phase) := by
    rwa [ht]
  exact (requestsBy_setThread _ hi').trans (.of_eq (by rw [requestsBy_congr hu ht]))

/-- An accepted request stays accepted. -/
theorem Step.accepted {c : Config} {l : Label} (h : Step c w l w') {task : Task}
    (ht : task ∈ w.accepted) : task ∈ w'.accepted := by
  cases h with
  | trip reading _ _ =>
      obtain ⟨-, -, -, hacc, -⟩ := trip_frame _ reading
      exact hacc.symm ▸ ht
  | enrol _ _ _ _ _ => exact List.mem_append_left _ ht
  | @finish i a done id t0 hi =>
      obtain ⟨-, -, hacc, -⟩ := unregister_frame w id done.control
      exact hacc.symm ▸ ht
  | @handle i a held id t0 phase next effect hi hh =>
      obtain ⟨-, -, -, hacc⟩ := apply_frame w held.control effect
      exact hacc.symm ▸ ht
  | _ => exact ht

end Requests

end JetsonVoice.Moss
