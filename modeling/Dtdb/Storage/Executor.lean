import Dtdb.Lib.Heap
import Dtdb.Lib.Run

/-! # The shared executor

A coalesce key is in the map while a task of it is queued or running, and its slot remembers the
last task submitted meanwhile.  A thread that has pushed a task notifies one waiting worker after it
has released the lock.  Tasks return. -/

namespace Dtdb.Storage.Executor

open List Dtdb.Lib

inductive Priority where
  | low
  | normal
  | high
deriving DecidableEq

structure QueuedTask (K T : Type) where
  priority : Priority
  seq : Nat
  key : Option K
  task : T
deriving DecidableEq

structure CoalesceSlot (T : Type) where
  running : Bool
  pending : Option T

/-- Where a worker is in `worker_loop`. -/
inductive Worker (K T : Type) where
  | atQueue
  | waiting
  | running (q : QueuedTask K T)
  | exited
deriving DecidableEq

/-- The `BinaryHeap` in the order of the pushes; `notifies` counts the threads between a push and
its `notify_one`. -/
structure Pool (K T : Type) where
  heap : List (QueuedTask K T)
  coalesce : K → Option (CoalesceSlot T)
  seq : Nat
  shuttingDown : Bool
  workers : List (Worker K T)
  notifies : Nat

inductive Event (K T : Type) where
  | submit (priority : Priority) (key : Option K) (task : T)
  | submitPeriodicTick (priority : Priority) (key : K) (task : T)
  | notify (woken : Option Nat)
  | pop (w : Nat) (q : QueuedTask K T)
  | wait (w : Nat)
  | finish (w : Nat)
  | shutDown

variable {K T : Type}

namespace Event

/-- Workers and notifiers move. -/
def background : Event K T → Bool
  | .notify _ | .pop _ _ | .wait _ | .finish _ => true
  | _ => false

end Event

namespace QueuedTask

def cmp (a b : QueuedTask K T) : Ordering :=
  compareLex (compareOn fun q => q.priority.ctorIdx) (fun a b => compareOn seq b a) a b

instance transCmp_cmp : Std.TransCmp (cmp (K := K) (T := T)) :=
  inferInstanceAs (Std.TransCmp (compareLex _ _))

end QueuedTask

namespace Worker

def runs [DecidableEq K] (k : K) : Worker K T → Bool
  | .running q => q.key = some k
  | _ => false

def active : Worker K T → Bool
  | .atQueue | .running _ => true
  | _ => false

end Worker

namespace Pool

def push (s : Pool K T) (priority : Priority) (key : Option K) (task : T) : Pool K T :=
  { s with
    heap := s.heap ++ [⟨priority, s.seq, key, task⟩]
    seq := s.seq + 1
    notifies := s.notifies + 1 }

section

variable [DecidableEq K]

def setSlot (s : Pool K T) (k : K) (slot : Option (CoalesceSlot T)) : Pool K T :=
  { s with coalesce := Function.update s.coalesce k slot }

/-- The first task of a key. -/
def enqueue (s : Pool K T) (priority : Priority) (k : K) (task : T) : Pool K T :=
  (s.setSlot k (some ⟨false, none⟩)).push priority (some k) task

def submit (s : Pool K T) (priority : Priority) (key : Option K) (task : T) : Pool K T :=
  if s.shuttingDown then s
  else match key with
    | none => s.push priority none task
    | some k => match s.coalesce k with
      | some slot => s.setSlot k (some { slot with pending := some task })
      | none => s.enqueue priority k task

def submitPeriodicTick (s : Pool K T) (priority : Priority) (k : K) (task : T) : Pool K T :=
  if s.shuttingDown || (s.coalesce k).isSome then s
  else s.enqueue priority k task

/-- What a worker does with the map when it has dequeued a task. -/
def start (s : Pool K T) (q : QueuedTask K T) : Pool K T :=
  { s with coalesce := fun k =>
      if q.key = some k then (s.coalesce k).map fun slot => { slot with running := true }
      else s.coalesce k }

/-- What a worker does with the map when a task has returned. -/
def followUp (s : Pool K T) (q : QueuedTask K T) : Pool K T :=
  match q.key with
  | none => s
  | some k => match s.coalesce k with
    | none => s
    | some ⟨_, some pending⟩ => s.enqueue q.priority k pending
    | some ⟨_, none⟩ => s.setSlot k none

def setWorker (s : Pool K T) (w : Nat) (worker : Worker K T) : Pool K T :=
  { s with workers := s.workers.set w worker }

def step [DecidableEq T] (s : Pool K T) : Event K T → Option (Pool K T)
  | .submit priority key task => some (s.submit priority key task)
  | .submitPeriodicTick priority key task => some (s.submitPeriodicTick priority key task)
  | .notify none =>
    if 0 < s.notifies ∧ .waiting ∉ s.workers then some { s with notifies := s.notifies - 1 }
    else none
  | .notify (some w) =>
    if 0 < s.notifies ∧ s.workers[w]? = some .waiting then
      some ({ s with notifies := s.notifies - 1 }.setWorker w .atQueue)
    else none
  | .pop w q =>
    if s.workers[w]? = some .atQueue ∧ q ∈ s.heap ∧ ∀ r ∈ s.heap, (r.cmp q).isLE then
      some (({ s with heap := s.heap.erase q }.setWorker w (.running q)).start q)
    else none
  | .wait w =>
    if s.workers[w]? = some .atQueue ∧ s.heap = [] then
      some (s.setWorker w (if s.shuttingDown then .exited else .waiting))
    else none
  | .finish w => match s.workers[w]? with
    | some (.running q) => some ((s.setWorker w .atQueue).followUp q)
    | _ => none
  | .shutDown =>
    some { s with
      shuttingDown := true
      workers := s.workers.map fun w => if w = .waiting then .atQueue else w }

/-- `ThreadPoolExecutor::new`, never with fewer than `MIN_WORKER_THREADS`. -/
def new (workerThreads : Nat) : Pool K T :=
  ⟨[], fun _ => none, 0, false, replicate (max workerThreads 2) .atQueue, 0⟩

end

/-! ## What holds of the pool -/

/-- Some worker is awake or can be woken. -/
def Live (s : Pool K T) : Prop := s.workers.any Worker.active ∨ .waiting ∈ s.workers

variable {s s' : Pool K T} {w n : Nat} {q : QueuedTask K T} {k : K} {p : Priority} {t : T}
  {c : K → Option (CoalesceSlot T)} {heap : List (QueuedTask K T)} {x y : Worker K T}

theorem active_set {ws : List (Worker K T)} (hw : ws[w]? = some x) (hy : y.active) :
    (ws.set w y).any Worker.active :=
  any_eq_true.2 ⟨y, mem_set (List.getElem?_eq_some_iff.1 hw).1 y, hy⟩

variable [DecidableEq K]

structure Inv (s : Pool K T) : Prop where
  keyed : ∀ k, s.heap.countP (·.key = some k) + s.workers.countP (Worker.runs k) =
    (s.coalesce k).isSome.toNat
  awake : s.heap ≠ [] → s.workers.any Worker.active ∨ 0 < s.notifies ∧ .waiting ∈ s.workers
  staffed : s.shuttingDown = false → .exited ∉ s.workers
  manned : s.workers ≠ []

theorem Inv.live (h : s.Inv) (hopen : s.shuttingDown = false) : s.Live := by
  obtain ⟨w, hw⟩ := exists_mem_of_ne_nil _ h.manned
  have := h.staffed hopen
  unfold Live
  cases w <;> grind [Worker.active]

theorem Inv.setSlot {slot slot' : CoalesceSlot T} (h : s.Inv) (hk : s.coalesce k = some slot) :
    (s.setSlot k (some slot')).Inv := by
  refine { h with keyed := fun j => (h.keyed j).trans ?_ }
  by_cases hj : j = k <;> simp [Pool.setSlot, hj, hk]

theorem Inv.push {key : Option K} (h : s.Inv) (hl : s.Live) (hk : ∀ j, (c j).isSome.toNat =
    (s.coalesce j).isSome.toNat + (decide (key = some j)).toNat) :
    ({ s with coalesce := c }.push p key t).Inv := by
  refine ⟨fun j => ?_, fun _ => hl.imp_right fun h => ⟨Nat.succ_pos _, h⟩, h.staffed, h.manned⟩
  have := h.keyed j
  have := hk j
  simp only [Pool.push, countP_append, countP_singleton]
  grind

theorem Inv.enqueue (h : s.Inv) (hl : s.Live) (hk : s.coalesce k = none) :
    (s.enqueue p k t).Inv := by
  refine h.push hl fun j => ?_
  by_cases hj : k = j
  · simp [hj ▸ hk, hj]
  · simp [hj, Ne.symm hj]

/-- A worker becomes active. -/
theorem Inv.setWorker (h : s.Inv) (hw : s.workers[w]? = some x) (hy : y.active)
    (hk : ∀ k, heap.countP (·.key = some k) + (y.runs k).toNat + (s.coalesce k).isSome.toNat =
      s.heap.countP (·.key = some k) + (x.runs k).toNat + (c k).isSome.toNat) :
    ({ s with heap := heap, coalesce := c, notifies := n }.setWorker w y).Inv := by
  obtain ⟨hlt, hx⟩ := List.getElem?_eq_some_iff.1 hw
  refine ⟨fun k => ?_, fun _ => .inl (active_set hw hy), fun hopen hmem => ?_, ?_⟩
  · have := h.keyed k
    have := hk k
    simp only [Pool.setWorker, countP_set hlt, hx]
    grind
  · exact (mem_or_eq_of_mem_set hmem).elim (h.staffed hopen) fun h => by
      simp [← h, Worker.active] at hy
  · simpa [Pool.setWorker] using h.manned

theorem Inv.start (h : s.Inv) : (s.start q).Inv := by
  refine { h with keyed := fun j => (h.keyed j).trans ?_ }
  simp only [Pool.start]
  split <;> simp

theorem Inv.submit {key : Option K} (h : s.Inv) : (s.submit p key t).Inv := by
  unfold Pool.submit
  split
  · exact h
  · next hopen =>
    have hl := h.live (by simpa using hopen)
    split
    · exact h.push hl (by simp)
    · split
      · next hk => exact h.setSlot hk
      · next hk => exact h.enqueue hl hk

/-- An accepted tick is a submit. -/
theorem submitPeriodicTick_eq : s.submitPeriodicTick p k t = s ∨
    s.submitPeriodicTick p k t = s.submit p (some k) t := by
  unfold submitPeriodicTick Pool.submit
  grind

theorem Inv.mapped_iff (h : s.Inv) : (s.coalesce k).isSome ↔
    (∃ q ∈ s.heap, q.key = some k) ∨ ∃ q, .running q ∈ s.workers ∧ q.key = some k := by
  have hheap : 0 < s.heap.countP (·.key = some k) ↔ ∃ q ∈ s.heap, q.key = some k := by
    simp [countP_pos_iff]
  have hworkers : 0 < s.workers.countP (Worker.runs k) ↔
      ∃ q, .running q ∈ s.workers ∧ q.key = some k := by
    rw [countP_pos_iff]
    constructor
    · rintro ⟨x, hx, hruns⟩
      cases x with
      | running q => exact ⟨q, hx, by simpa [Worker.runs] using hruns⟩
      | atQueue | waiting | exited => cases hruns
    · rintro ⟨q, hq, hk⟩
      exact ⟨.running q, hq, by simp [Worker.runs, hk]⟩
  have hmapped : (s.coalesce k).isSome ↔ 0 < (s.coalesce k).isSome.toNat := by
    cases (s.coalesce k).isSome <;> simp
  rw [← hheap, ← hworkers, hmapped, ← h.keyed k]
  omega

theorem Inv.followUp (h : s.Inv) (hw : s.workers[w]? = some (.running q)) :
    ((s.setWorker w .atQueue).followUp q).Inv := by
  unfold Pool.followUp
  split
  · next hq => exact h.setWorker hw rfl (by simp [Worker.runs, hq])
  · next k hq =>
    have hk : (s.coalesce k).isSome := h.mapped_iff.2 (.inr ⟨q, mem_of_getElem? hw, hq⟩)
    -- the key is free once the worker has let go of it
    have hfree :
        ({ s with coalesce := Function.update s.coalesce k none }.setWorker w .atQueue).Inv := by
      refine h.setWorker hw rfl fun j => ?_
      by_cases hj : k = j
      · simp [Worker.runs, hq, ← hj, hk]
      · simp [Worker.runs, hq, hj, Ne.symm hj]
    split
    · next hnone =>
      rw [show s.coalesce k = none from hnone] at hk
      cases hk
    · simpa [Pool.enqueue, Pool.setSlot, Pool.setWorker] using
        hfree.enqueue (.inl (active_set hw rfl)) (Function.update_self ..)
    · exact hfree

theorem Inv.new (n : Nat) : (new n : Pool K T).Inv :=
  ⟨fun k => by simp [Pool.new, countP_replicate, Worker.runs], fun h => absurd rfl h,
    by simp [Pool.new], by simp [Pool.new]⟩

variable [DecidableEq T] {ev : Event K T}

theorem pop_eq (hs : s.step (.pop w q) = some s') :
    (s.workers[w]? = some .atQueue ∧ q ∈ s.heap ∧ ∀ r ∈ s.heap, (r.cmp q).isLE) ∧
      ({ s with heap := s.heap.erase q }.setWorker w (.running q)).start q = s' := by
  simpa [step] using hs

theorem finish_eq (hs : s.step (.finish w) = some s') :
    ∃ q, s.workers[w]? = some (.running q) ∧ (s.setWorker w .atQueue).followUp q = s' := by
  simp only [step] at hs
  split at hs
  · next q hw => exact ⟨q, hw, Option.some.inj hs⟩
  · cases hs

theorem Inv.step (h : s.Inv) (hs : s.step ev = some s') : s'.Inv := by
  cases ev with
  | submit p key t =>
    cases hs
    exact h.submit
  | submitPeriodicTick p k t =>
    cases hs
    rcases submitPeriodicTick_eq (s := s) with heq | heq <;> rw [heq]
    · exact h
    · exact h.submit
  | notify woken =>
    cases woken with
    | none =>
      obtain ⟨⟨-, hnone⟩, rfl⟩ : (0 < s.notifies ∧ .waiting ∉ s.workers) ∧ _ := by
        simpa [Pool.step] using hs
      exact { h with awake := fun hne => .inl ((h.awake hne).resolve_right (hnone ·.2)) }
    | some w =>
      obtain ⟨⟨-, hw⟩, rfl⟩ : (0 < s.notifies ∧ s.workers[w]? = some .waiting) ∧ _ := by
        simpa [Pool.step] using hs
      exact h.setWorker hw rfl fun _ => rfl
  | pop w q =>
    obtain ⟨⟨hw, hq, -⟩, rfl⟩ := pop_eq hs
    refine (h.setWorker hw rfl fun k => ?_).start
    rw [(perm_cons_erase hq).countP_eq, countP_cons]
    simp [Worker.runs]
    grind
  | wait w =>
    obtain ⟨⟨hw, hnil⟩, rfl⟩ : (s.workers[w]? = some .atQueue ∧ s.heap = []) ∧ _ := by
      simpa [Pool.step] using hs
    obtain ⟨hlt, hx⟩ := List.getElem?_eq_some_iff.1 hw
    refine ⟨fun k => ?_, fun hne => absurd hnil hne, fun hopen => ?_,
      by simpa [Pool.setWorker] using h.manned⟩
    · have := h.keyed k
      simp only [Pool.setWorker, countP_set hlt, hx] at this ⊢
      grind [Worker.runs]
    · have := h.staffed hopen
      grind [Pool.setWorker]
  | finish w =>
    obtain ⟨q, hw, rfl⟩ := finish_eq hs
    exact h.followUp hw
  | shutDown =>
    cases hs
    refine ⟨fun k => ?_, fun hne => .inl ?_, nofun, by simpa using h.manned⟩
    · rw [← h.keyed k]
      simp only [countP_map]
      congr 2
      funext w
      cases w <;> simp [Worker.runs]
    · have := h.awake hne
      simp only [any_map]
      grind [Worker.active]

/-- No worker and no notifier can move: everything is done. -/
theorem drained (h : s.Inv) (hstuck : ∀ ev : Event K T, ev.background → s.step ev = none) :
    s.heap = [] ∧ ∀ q, .running q ∉ s.workers := by
  have hrun : ∀ q, .running q ∉ s.workers := by
    intro q hq
    obtain ⟨w, hw⟩ := getElem?_of_mem hq
    have := hstuck (.finish w) rfl
    simp [Pool.step, hw] at this
  refine ⟨Classical.byContradiction fun hne => ?_, hrun⟩
  rcases h.awake hne with hactive | ⟨hn, hwait⟩
  · obtain ⟨x, hx, hact⟩ := any_eq_true.1 hactive
    cases x with
    | running q => exact hrun q hx
    | waiting | exited => cases hact
    | atQueue =>
      obtain ⟨w, hw⟩ := getElem?_of_mem hx
      obtain ⟨a, l, hl⟩ := exists_cons_of_ne_nil hne
      obtain ⟨hmem, hmax⟩ := Heap.greatest_spec (c := QueuedTask.cmp) a l
      rw [← hl] at hmem hmax
      have := hstuck (.pop w (Heap.greatest QueuedTask.cmp a l)) rfl
      rw [Pool.step, if_pos ⟨hw, hmem, hmax⟩] at this
      cases this
  · obtain ⟨w, hw⟩ := getElem?_of_mem hwait
    have := hstuck (.notify (some w)) rfl
    simp [Pool.step, hw] at this
    omega

theorem Inv.run {s₀ : Pool K T} {ls : List (Event K T)} (h : s₀.Inv)
    (hr : Run Pool.step (fun _ _ => True) s₀ ls s) : s.Inv :=
  hr.invariant (I := fun _ => Inv) h fun _ _ _ _ h _ hs => h.step hs

/-- **One task per key.** After every run of submits, ticks, worker steps and shutdowns, at most one
worker runs a task of a key, and the key is in the map exactly while one is queued or runs. -/
theorem one_task_per_key {ls : List (Event K T)} (hr : Run step (fun _ _ => True) (new n) ls s)
    (k : K) : s.workers.countP (Worker.runs k) ≤ 1 ∧ ((s.coalesce k).isSome ↔
      (∃ q ∈ s.heap, q.key = some k) ∨ ∃ q, .running q ∈ s.workers ∧ q.key = some k) := by
  have hinv := (Inv.new n).run hr
  have hkeyed := hinv.keyed k
  have hle := (s.coalesce k).isSome.toNat_le
  exact ⟨by omega, hinv.mapped_iff⟩

/-- A key is submitted to three times while its first task runs. -/
def coalescedTrace : List (Event Nat Nat) :=
  [.submit .normal (some 0) 1, .notify none, .pop 0 ⟨.normal, 0, some 0, 1⟩, .wait 1,
    .submit .low none 2, .submit .high (some 0) 3, .submit .high (some 0) 4, .finish 0,
    .notify (some 1), .pop 1 ⟨.normal, 2, some 0, 4⟩, .pop 0 ⟨.low, 1, none, 2⟩]

theorem one_task_per_key_coalescedTrace : ∃ s,
    Run step (fun _ _ => True) (new 0) coalescedTrace s ∧
      .running ⟨.normal, 2, some 0, 4⟩ ∈ s.workers ∧ s.workers.countP (Worker.runs 0) ≤ 1 := by
  refine Run.exists_of_exec (p := fun s => .running ⟨.normal, 2, some 0, 4⟩ ∈ s.workers) (by decide)
    fun s hr hs => ?_
  exact ⟨hs, (one_task_per_key hr 0).1⟩

/-- **No wake-up is lost.** Whenever no worker and no notifier can move, no task is queued or
running and no key is in the map, so none waits behind another one of its key. -/
theorem at_rest_nothing_left {ls : List (Event K T)}
    (hr : Run step (fun _ _ => True) (new n) ls s)
    (hstuck : ∀ ev : Event K T, ev.background → s.step ev = none) :
    s.heap = [] ∧ (∀ q, .running q ∉ s.workers) ∧ ∀ k, s.coalesce k = none := by
  have hinv := (Inv.new n).run hr
  obtain ⟨hheap, hidle⟩ := drained hinv hstuck
  exact ⟨hheap, hidle, fun k => by simpa [hheap, hidle] using (hinv.mapped_iff (k := k)).not⟩

/-- Both workers wait again when the trace is over. -/
theorem at_rest_coalescedTrace : ∃ s, Run step (fun _ _ => True) (new 0)
    (coalescedTrace ++ [.notify none, .finish 0, .finish 1, .wait 0, .wait 1]) s ∧ s.coalesce 0 = none := by
  refine Run.exists_of_exec (p := fun s => s.notifies = 0 ∧ s.workers = [.waiting, .waiting])
    (by decide) fun s hr ⟨hn, hw⟩ => (at_rest_nothing_left hr fun ev hev => ?_).2.2 0
  have hwait : ∀ w (x : Worker Nat Nat), s.workers[w]? = some x → x = .waiting := fun w x hx => by
    simpa [hw] using mem_of_getElem? hx
  cases ev with
  | notify woken => cases woken <;> simp [step, hn]
  | pop w q | wait w | finish w => grind [step]
  | submit _ _ _ | submitPeriodicTick _ _ _ | shutDown => cases hev

end Pool

end Dtdb.Storage.Executor
