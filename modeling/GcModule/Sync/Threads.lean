import GcModule.Sync.ObjectSpace

namespace GcModule
set_option autoImplicit true

/-- A completed critical section under the list lock, in the order the lock was released. -/
inductive Event where
  | created (header : Addr)
  | removed (header : Addr)
  | counted (n : Nat)
  | collected
  deriving DecidableEq, Repr

def Event.abs : Event → List Addr → List Addr
  | .created x, L => x :: L
  | .removed x, L => L.erase x
  | .counted _, L | .collected, L => L

/-- The headers whose `create` has completed and whose `remove` has not, replayed in order. -/
def liveOf (log : List Event) : List Addr := log.foldl (fun L ev => ev.abs L) []

@[simp] theorem liveOf_append : liveOf (log ++ [ev]) = ev.abs (liveOf log) := by
  simp [liveOf]

inductive Walker where
  | count | collect
  deriving DecidableEq, Repr

def Walker.event : Walker → Nat → Event
  | .count, n => .counted n
  | .collect, _ => .collected

/-- Where a thread is in its operation; every read and store of a list link is a step of its own. -/
inductive Pc where
  | idle
  | createLock (vptr : Nat)
  | createAlloc (vptr : Nat)
  | createCheck (header vptr : Nat)
  | createRead (header vptr : Nat)
  | removeLock (header : Addr)
  | removeCheckNext (header : Addr)
  | removeCheckPrev (header : Addr)
  | removeReadNext (header : Addr)
  | removeReadPrev (header next : Addr)
  | stores (ws : List Write) (ev : Event)
  | collectWrite
  | visitLock (w : Walker)
  | visitStart (w : Walker)
  | visitLoop (w : Walker) (ptr : Option Addr) (count : Nat)
  | collectRelease
  | fault
  deriving Repr

def Pc.locked : Pc → Bool
  | .createAlloc _ | .createCheck _ _ | .createRead _ _ | .removeCheckNext _ | .removeCheckPrev _
  | .removeReadNext _ | .removeReadPrev _ _ | .stores _ _ | .visitStart _ | .visitLoop _ _ _ => true
  | _ => false

structure Thread where
  pc : Pc
  handles : List Addr

/-- Threads sharing one `ThreadedObjectSpace`, and the log of completed sections no step reads. -/
structure Sys where
  mem : Mem
  list : Addr
  mutex : Nat → Option Nat
  writer : Option Nat
  inUse : Addr → Bool
  threads : Nat → Thread
  log : List Event

def Sys.setThread (σ : Sys) (t : Nat) (th : Thread) : Sys :=
  { σ with threads := Function.update σ.threads t th }

def Sys.setPc (σ : Sys) (t : Nat) (pc : Pc) : Sys := σ.setThread t { σ.threads t with pc }

section
variable {σ : Sys} {t t' : Nat} {th : Thread} {pc : Pc}

@[simp] theorem Sys.setThread_mem : (σ.setThread t th).mem = σ.mem := rfl
@[simp] theorem Sys.setThread_list : (σ.setThread t th).list = σ.list := rfl
@[simp] theorem Sys.setThread_mutex : (σ.setThread t th).mutex = σ.mutex := rfl
@[simp] theorem Sys.setThread_writer : (σ.setThread t th).writer = σ.writer := rfl
@[simp] theorem Sys.setThread_inUse : (σ.setThread t th).inUse = σ.inUse := rfl
@[simp] theorem Sys.setThread_log : (σ.setThread t th).log = σ.log := rfl
@[simp] theorem Sys.setThread_threads :
    (σ.setThread t th).threads t' = if t' = t then th else σ.threads t' := by
  simp [Sys.setThread, Function.update_apply]

@[simp] theorem Sys.setThread_setThread :
    (σ.setThread t th).setThread t th' = σ.setThread t th' := by
  simp [Sys.setThread, Function.update_idem]

@[simp] theorem Sys.setPc_eq : σ.setPc t pc = σ.setThread t { σ.threads t with pc } := rfl

end

def Sys.acquire (σ : Sys) (t lock : Nat) (pc : Pc) : Option Sys :=
  if σ.mutex lock = none then
    some ({ σ with mutex := Function.update σ.mutex lock (some t) }.setPc t pc)
  else none

/-- The header a guard locked through: its own for `remove`, the sentinel otherwise. -/
def Event.guard (list : Addr) : Event → Addr
  | .removed x => x
  | _ => list

def Event.after : Event → Pc
  | .collected => .collectRelease
  | _ => .idle

/-- Drops the guard, records `ev`, hands a created header to its thread and frees a removed one. -/
def Sys.release (σ : Sys) (t : Nat) (ev : Event) : Sys :=
  { σ with
    mutex := Function.update σ.mutex (σ.mem (ev.guard σ.list)).linkedListLock none
    inUse := match ev with
      | .removed x => Function.update σ.inUse x false
      | _ => σ.inUse
    log := σ.log ++ [ev] }.setThread t
    { pc := ev.after
      handles := match ev with
        | .created x => x :: (σ.threads t).handles
        | _ => (σ.threads t).handles }

/-- The debug assertions of `insert` in `create`: same lock handle, the lock held, `next` null. -/
def insertChecks (σ : Sys) (x : Addr) : Bool :=
  (σ.mem x).linkedListLock = (σ.mem σ.list).linkedListLock &&
    (σ.mutex (σ.mem σ.list).linkedListLock).isSome && (σ.mem x).next.isNone

/-- The step of thread `t` at `pc` the code determines; `none` when it is blocked or has none. -/
def Sys.step (σ : Sys) (t : Nat) : Pc → Option Sys
  | .createLock v => σ.acquire t (σ.mem σ.list).linkedListLock (.createAlloc v)
  | .createCheck x v => some (σ.setPc t (if insertChecks σ x then .createRead x v else .fault))
  | .createRead x v => some (σ.setPc t (match (σ.mem σ.list).next with
      | some n => .stores (insertWrites σ.list x n v) (.created x)
      | none => .fault))
  | .removeLock x => σ.acquire t (σ.mem x).linkedListLock (.removeCheckNext x)
  | .removeCheckNext x =>
    some (σ.setPc t (if (σ.mem x).next.isNone then .fault else .removeCheckPrev x))
  | .removeCheckPrev x =>
    some (σ.setPc t (if (σ.mem x).prev.isNone then .fault else .removeReadNext x))
  | .removeReadNext x => some (σ.setPc t (match (σ.mem x).next with
      | some n => .removeReadPrev x n
      | none => .fault))
  | .removeReadPrev x n => some (σ.setPc t (match (σ.mem x).prev with
      | some p => .stores (removeWrites x n p) (.removed x)
      | none => .fault))
  | .stores (w :: ws) ev => some ({ σ with mem := w.apply σ.mem }.setPc t (.stores ws ev))
  | .stores [] ev => some (σ.release t ev)
  | .collectWrite =>
    if σ.writer = none then some ({ σ with writer := some t }.setPc t (.visitLock .collect))
    else none
  | .visitLock w => σ.acquire t (σ.mem σ.list).linkedListLock (.visitStart w)
  | .visitStart w => some (σ.setPc t (.visitLoop w (σ.mem σ.list).next 0))
  | .visitLoop _ none _ => some (σ.setPc t .fault)
  | .visitLoop w (some p) n => some (σ.setPc t
      (if p = σ.list then .stores [] (w.event n) else .visitLoop w (σ.mem p).next (n + 1)))
  | .collectRelease => some ({ σ with writer := none }.setPc t .idle)
  | .idle | .createAlloc _ | .fault => none

/-- One step of thread `t`. A handle is an object's last reference, whose drop calls `remove`;
`drop` lets it go without unlinking, as a reference left in an unreachable cycle. -/
inductive Step (dummyVptr t : Nat) : Sys → Sys → Prop where
  | create (h : (σ.threads t).pc = .idle) : Step dummyVptr t σ (σ.setPc t (.createLock v))
  | remove (h : (σ.threads t).pc = .idle) (hx : x ∈ (σ.threads t).handles) :
      Step dummyVptr t σ (σ.setThread t ⟨.removeLock x, (σ.threads t).handles.erase x⟩)
  | drop (h : (σ.threads t).pc = .idle) (hx : x ∈ (σ.threads t).handles) :
      Step dummyVptr t σ (σ.setThread t ⟨.idle, (σ.threads t).handles.erase x⟩)
  | countTracked (h : (σ.threads t).pc = .idle) :
      Step dummyVptr t σ (σ.setPc t (.visitLock .count))
  | collectCycles (h : (σ.threads t).pc = .idle) : Step dummyVptr t σ (σ.setPc t .collectWrite)
  | alloc (h : (σ.threads t).pc = .createAlloc v) (hx : σ.inUse x = false) :
      Step dummyVptr t σ ({ σ with
        mem := σ.mem.write x (emptyHeader σ.mem σ.list dummyVptr)
        inUse := Function.update σ.inUse x true }.setPc t (.createCheck x v))
  | run (h : σ.step t (σ.threads t).pc = some σ') : Step dummyVptr t σ σ'

/-- A space fresh from `ThreadedObjectSpace::default`, and threads that hold nothing. -/
def Sys.init (list : Addr) (lock dummyVptr : Nat) : Sys where
  mem := default Mem.null list lock dummyVptr
  list := list
  mutex := fun _ => none
  writer := none
  inUse := fun a => a = list
  threads := fun _ => ⟨.idle, []⟩
  log := []

inductive Reachable (list : Addr) (lock dummyVptr : Nat) : Sys → Prop where
  | init : Reachable list lock dummyVptr (Sys.init list lock dummyVptr)
  | step : Reachable list lock dummyVptr σ → Step dummyVptr t σ σ' →
      Reachable list lock dummyVptr σ'

def Sys.lock (σ : Sys) : Nat := (σ.mem σ.list).linkedListLock

def Sys.steps (σ : Sys) (t : Nat) : Nat → Option Sys
  | 0 => some σ
  | k + 1 => (σ.step t (σ.threads t).pc).bind fun σ' => σ'.steps t k

theorem Reachable.steps (h : Reachable s ℓ d σ) (hk : σ.steps t k = some σ') :
    Reachable s ℓ d σ' := by
  induction k generalizing σ with
  | zero => cases hk; exact h
  | succ k ih =>
    simp only [Sys.steps, Option.bind_eq_some] at hk
    obtain ⟨σ₁, h₁, hk⟩ := hk
    exact ih (h.step (.run h₁)) hk

theorem reachable_two_creates :
    ∃ σ, Reachable 0 4 5 σ ∧ σ.log = [.created 1, .created 2] ∧ σ.mutex σ.lock = none := by
  have h₀ : Reachable 0 4 5 (Sys.init 0 4 5) := .init
  have h₁ := ((h₀.step (.create (t := 1) (v := 7) rfl)).steps (t := 1) (k := 1) rfl).step
    (.alloc (t := 1) (x := 1) rfl rfl)
  have h₂ := ((((h₁.steps (t := 1) (k := 8) rfl).step (.create (t := 0) (v := 8) rfl)).steps
    (t := 0) (k := 1) rfl).step (.alloc (t := 0) (x := 2) rfl rfl)).steps (t := 0) (k := 8) rfl
  exact ⟨_, h₂, rfl, rfl⟩

theorem reachable_mid_create :
    ∃ σ, Reachable 0 4 5 σ ∧ (σ.threads 1).pc = .removeLock 1 ∧
      (σ.threads 0).pc = .stores (insertWrites 0 2 1 8) (.created 2) ∧ σ.mutex σ.lock = some 0 := by
  have h₀ : Reachable 0 4 5 (Sys.init 0 4 5) := .init
  have h₁ := ((h₀.step (.create (t := 1) (v := 7) rfl)).steps (t := 1) (k := 1) rfl).step
    (.alloc (t := 1) (x := 1) rfl rfl)
  have h₂ := ((((h₁.steps (t := 1) (k := 8) rfl).step
    (.remove (t := 1) (x := 1) rfl (by decide))).step (.create (t := 0) (v := 8) rfl)).steps
    (t := 0) (k := 1) rfl).step (.alloc (t := 0) (x := 2) rfl rfl)
  exact ⟨_, h₂.steps (t := 0) (k := 2) rfl, rfl, rfl, rfl⟩

end GcModule
