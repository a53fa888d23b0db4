import GcModule.Sync.Allocation

namespace GcModule
set_option autoImplicit true

def Op.event : Op → Event
  | .insert h _ => .created h
  | .remove h => .removed h

def Event.changes : Event → Bool
  | .created _ | .removed _ => true
  | .counted _ | .collected => false

theorem runOps_append :
    runOps s d (ops ++ [o]) m = (runOps s d ops m).bind (o.run s d) := by
  induction ops generalizing m with
  | nil => simp [runOps]
  | cons o' os ih => cases h : o'.run s d m <;> simp [runOps, h, ih]

theorem validRun_append :
    ValidRun s (ops ++ [o]) L ↔ ValidRun s ops L ∧ o.Valid s (absRun ops L) := by
  induction ops generalizing L with
  | nil => simp [ValidRun, absRun]
  | cons o' os ih => simp [ValidRun, absRun, ih, and_assoc]

theorem absRun_append : absRun (ops ++ [o]) L = o.abs (absRun ops L) := by
  induction ops generalizing L with
  | nil => rfl
  | cons o' os ih => exact ih

/-- How the memory of a section under way stands to the memory `M` the completed sections left. -/
def Pending (s : Addr) (d : Nat) (M m : Mem) : Pc → Prop
  | .createCheck x _ | .createRead x _ => m = M.write x (emptyHeader M s d)
  | .stores ws (.created x) => ∃ v, Op.run s d (.insert x v) M = some (applyAll ws m)
  | .stores ws (.removed x) => Op.run s d (.remove x) M = some (applyAll ws m)
  | .stores ws _ => ws = [] ∧ m = M
  | _ => m = M

/-- The sequential run of `insert`s and `remove`s that the completed sections of `σ` replay. -/
structure Replays (s : Addr) (ℓ d : Nat) (σ : Sys) (ops : List Op) (M : Mem) : Prop where
  list : σ.list = s
  events : ops.map Op.event = σ.log.filter Event.changes
  valid : ValidRun σ.list ops []
  live : absRun ops [] = liveOf σ.log
  replay : runOps σ.list d ops (default Mem.null σ.list ℓ d) = some M
  free : σ.mutex σ.lock = none → σ.mem = M
  held : ∀ t, σ.mutex σ.lock = some t → Pending σ.list d M σ.mem (σ.threads t).pc

theorem Replays.init : Replays s ℓ d (Sys.init s ℓ d) [] (default Mem.null s ℓ d) :=
  ⟨rfl, rfl, trivial, rfl, rfl, fun _ => rfl, fun _ h => by simp [Sys.init] at h⟩

section
variable {σ σ' : Sys} {t : Nat} {th : Thread} {pc : Pc} {ops : List Op} {M : Mem}

theorem Replays.setThread (hr : Replays s ℓ d σ ops M) (ht : σ.mutex σ.lock ≠ some t) :
    Replays s ℓ d (σ.setThread t th) ops M := by
  refine ⟨hr.list, hr.events, hr.valid, hr.live, hr.replay, hr.free, fun t' h => ?_⟩
  have : t' ≠ t := by rintro rfl; exact ht h
  simpa [this] using hr.held t' h

theorem Replays.writer (hr : Replays s ℓ d σ ops M) (w : Option Nat) :
    Replays s ℓ d { σ with writer := w } ops M :=
  ⟨hr.list, hr.events, hr.valid, hr.live, hr.replay, hr.free, hr.held⟩

theorem Replays.holder (hr : Replays s ℓ d σ ops M) (ht : σ.mutex σ.lock = some t)
    (hl : (m σ.list).linkedListLock = σ.lock) (hp : Pending σ.list d M m pc) :
    Replays s ℓ d ({ σ with mem := m, inUse := u }.setPc t pc) ops M := by
  have hlock : ({ σ with mem := m, inUse := u }.setPc t pc).lock = σ.lock := hl
  refine ⟨hr.list, hr.events, hr.valid, hr.live, hr.replay, fun h => ?_, fun t' h => ?_⟩ <;>
    rw [hlock] at h
  · exact absurd (ht.symm.trans h) (by simp)
  · obtain rfl : t' = t := Option.some.inj (h.symm.trans ht)
    simpa using hp

theorem Replays.held_at (hr : Replays s ℓ d σ ops M) (ht : σ.mutex σ.lock = some t)
    (hpc : (σ.threads t).pc = pc) : Pending σ.list d M σ.mem pc :=
  hpc ▸ hr.held t ht

theorem Replays.holder_move (hr : Replays s ℓ d σ ops M) (ht : σ.mutex σ.lock = some t)
    (hp : Pending σ.list d M σ.mem pc) : Replays s ℓ d (σ.setPc t pc) ops M :=
  hr.holder ht rfl hp

theorem Replays.acquire (hr : Replays s ℓ d σ ops M) (hm : σ.mutex σ.lock = none)
    (hp : σ.mem = M → Pending σ.list d M σ.mem pc) :
    Replays s ℓ d ({ σ with mutex := Function.update σ.mutex σ.lock (some t) }.setPc t pc)
      ops M := by
  have hlock : ({ σ with mutex := Function.update σ.mutex σ.lock (some t) }.setPc t pc).lock =
      σ.lock := rfl
  refine ⟨hr.list, hr.events, hr.valid, hr.live, hr.replay, fun h => ?_, fun t' h => ?_⟩ <;>
    rw [hlock] at h
  · simp at h
  · obtain rfl : t' = t := by simpa [eq_comm] using h
    simpa using hp (hr.free hm)

theorem Replays.release (hi : Inv σ) (hr : Replays s ℓ d σ ops M)
    (hpc : (σ.threads t).pc = .stores [] ev) :
    ∃ ops' M', Replays s ℓ d (σ.release t ev) ops' M' := by
  obtain ⟨ht, -, hc⟩ := hi.locked hpc rfl
  have hp := hr.held t ht
  rw [hpc] at hp
  have held : ∀ t', (σ.release t ev).mutex (σ.release t ev).lock = some t' → False :=
    fun t' h => by simp [hi.release_unlocks hpc] at h
  have commit : ∀ o : Op, o.event = ev → o.Valid σ.list (liveOf σ.log) →
      o.run σ.list d M = some σ.mem → ∃ ops' M', Replays s ℓ d (σ.release t ev) ops' M' := by
    rintro o rfl hv ho
    refine ⟨ops ++ [o], σ.mem, hr.list, ?_, validRun_append.2 ⟨hr.valid, ?_⟩, ?_, ?_,
      fun _ => rfl, fun t' h => (held t' h).elim⟩
    · cases o <;> simp [Sys.release, hr.events, Op.event, Event.changes]
    · rw [hr.live]; exact hv
    · cases o <;> simp [Sys.release, absRun_append, hr.live, Op.abs, Op.event, Event.abs]
    · change runOps σ.list d (ops ++ _) (default Mem.null σ.list ℓ d) = _
      rw [runOps_append, hr.replay]; exact ho
  cases ev with
  | created x =>
    obtain ⟨v, hv⟩ := hp
    exact commit (.insert x v) rfl hc.1 hv
  | removed x => exact commit (.remove x) rfl hc hp
  | counted n | collected =>
    refine ⟨ops, M, hr.list, ?_, hr.valid, ?_, hr.replay, fun _ => hp.2,
      fun t' h => (held t' h).elim⟩
    · simp [Sys.release, hr.events, Event.changes]
    · simp [Sys.release, hr.live, Event.abs]

theorem Replays.code (hi : Inv σ) (hr : Replays s ℓ d σ ops M)
    (h : σ.step t (σ.threads t).pc = some σ') : ∃ ops' M', Replays s ℓ d σ' ops' M' := by
  generalize hpc : (σ.threads t).pc = pc at h
  have hout : pc.locked = false → σ.mutex σ.lock ≠ some t := fun hl ht => by
    simp [← hpc, (hi.holder t).2 ht] at hl
  cases pc with
  | idle | createAlloc _ | fault => simp [Sys.step] at h
  | createLock _ | visitLock _ =>
    obtain ⟨hm, rfl⟩ := Sys.acquire_eq_some h
    exact ⟨ops, M, hr.acquire hm id⟩
  | removeLock x =>
    obtain ⟨hm, rfl⟩ := Sys.acquire_eq_some h
    have hl : (σ.mem x).linkedListLock = σ.lock :=
      hi.lock_live x (hi.owned_live t x (by simp [Sys.owned, hpc, Pc.removing]))
    rw [hl] at hm ⊢
    exact ⟨ops, M, hr.acquire hm id⟩
  | collectWrite =>
    simp only [Sys.step] at h
    split at h <;> cases h
    exact ⟨ops, M, (hr.writer _).setThread (hout rfl)⟩
  | collectRelease =>
    cases h
    exact ⟨ops, M, (hr.writer _).setThread (hout rfl)⟩
  | createCheck x v =>
    obtain ⟨ht, -, -, hnext, hlock, -⟩ := hi.locked hpc rfl
    have ht' : σ.mutex (σ.mem σ.list).linkedListLock = some t := ht
    have hc : insertChecks σ x = true := by simp [insertChecks, hnext, hlock, ht']
    have hM : σ.mem = M.write x (emptyHeader M σ.list d) := hr.held_at ht hpc
    cases h
    rw [hc, if_pos rfl]
    exact ⟨ops, M, hr.holder_move ht hM⟩
  | createRead x v =>
    obtain ⟨ht, hrep, -, hnext, hlock, -⟩ := hi.locked hpc rfl
    obtain ⟨n, -, -, hn, -⟩ := hrep.exists_head
    have hM : σ.mem = M.write x (emptyHeader M σ.list d) := hr.held_at ht hpc
    cases h
    simp only [hn]
    refine ⟨ops, M, hr.holder_move ht ⟨v, ?_⟩⟩
    rw [Op.run, ← hM]
    simp [GcModule.insert, hlock, hnext, hn]
  | removeCheckNext x | removeCheckPrev x | removeReadNext x =>
    obtain ⟨ht, -⟩ := hi.locked hpc rfl
    have hM : σ.mem = M := hr.held_at ht hpc
    cases h
    exact ⟨ops, M, hr.holder_move ht (by split <;> exact hM)⟩
  | removeReadPrev x n =>
    obtain ⟨ht, hrep, hx, hn⟩ := hi.locked hpc rfl
    obtain ⟨p, -, hp⟩ := hrep.exists_prev (List.mem_cons_of_mem _ hx)
    have hM : σ.mem = M := hr.held_at ht hpc
    cases h
    simp only [hp]
    refine ⟨ops, M, hr.holder_move ht ?_⟩
    show Op.run σ.list d (.remove x) M = some (applyAll (removeWrites x n p) σ.mem)
    rw [← hM]
    simp [Op.run, GcModule.remove, hn, hp]
  | stores ws ev =>
    cases ws with
    | nil => cases h; exact hr.release hi hpc
    | cons w ws =>
      obtain ⟨ht, -⟩ := hi.locked hpc rfl
      have hp := hr.held_at ht hpc
      cases h
      refine ⟨ops, M, hr.holder ht (Write.apply_lock w) ?_⟩
      cases ev with
      | created x => exact hp
      | removed x => exact hp
      | counted _ | collected => exact absurd hp.1 (List.cons_ne_nil w ws)
  | visitStart w =>
    obtain ⟨ht, -⟩ := hi.locked hpc rfl
    have hM : σ.mem = M := hr.held_at ht hpc
    cases h
    exact ⟨ops, M, hr.holder_move ht hM⟩
  | visitLoop w ptr n =>
    obtain ⟨ht, -, pre, suf, -, -, hptr⟩ := hi.locked hpc rfl
    have hM : σ.mem = M := hr.held_at ht hpc
    cases ptr with
    | none => cases suf <;> simp at hptr
    | some p =>
      cases h
      split
      · exact ⟨ops, M, hr.holder_move ht (by cases w <;> exact ⟨rfl, hM⟩)⟩
      · exact ⟨ops, M, hr.holder_move ht hM⟩

theorem Replays.step (hi : Inv σ) (hr : Replays s ℓ d σ ops M) (hs : Step d t σ σ') :
    ∃ ops' M', Replays s ℓ d σ' ops' M' := by
  have hout : (σ.threads t).pc.locked = false → σ.mutex σ.lock ≠ some t := fun hl ht => by
    simp [(hi.holder t).2 ht] at hl
  cases hs with
  | create h | countTracked h | collectCycles h | remove h _ | drop h _ =>
    exact ⟨ops, M, hr.setThread (hout (by simp [h, Pc.locked]))⟩
  | @alloc _ v x h hx =>
    obtain ⟨ht, -⟩ := hi.locked h rfl
    have hM : σ.mem = M := hr.held_at ht h
    have hxs : σ.list ≠ x := fun e => by
      simp [← e, hi.inUse_live σ.list (List.mem_cons_self _ _)] at hx
    exact ⟨ops, M, hr.holder ht (by simp [hxs]; rfl) (by rw [hM]; rfl)⟩
  | run h => exact hr.code hi h

theorem Replays.reachable (h : Reachable s ℓ d σ) : ∃ ops M, Replays s ℓ d σ ops M := by
  induction h with
  | init => exact ⟨[], _, Replays.init⟩
  | step hσ hs ih =>
    obtain ⟨ops, M, hr⟩ := ih
    exact hr.step (Inv.reachable hσ) hs

end

/-- Every interleaving serializes into the sequential run of its completed creates and removes. -/
theorem interleavings_serialize (h : Reachable s ℓ d σ) (hf : σ.mutex σ.lock = none) :
    ∃ ops, ops.map Op.event = σ.log.filter Event.changes ∧ ValidRun s ops [] ∧
      runOps s d ops (default Mem.null s ℓ d) = some σ.mem := by
  obtain ⟨ops, M, hr⟩ := Replays.reachable h
  obtain rfl := hr.list
  exact ⟨ops, hr.events, hr.valid, hr.free hf ▸ hr.replay⟩

theorem interleavings_serialize_two_creates :
    ∃ σ, Reachable 0 4 5 σ ∧ σ.log = [.created 1, .created 2] ∧ σ.mutex σ.lock = none ∧
      ∃ ops, ops.map Op.event = σ.log.filter Event.changes ∧ ValidRun 0 ops [] ∧
        runOps 0 5 ops (default Mem.null 0 4 5) = some σ.mem :=
  let ⟨σ, h, hl, hf⟩ := reachable_two_creates
  ⟨σ, h, hl, hf, interleavings_serialize h hf⟩

end GcModule
