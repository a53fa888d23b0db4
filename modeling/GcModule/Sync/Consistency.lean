import GcModule.Sync.Completion

namespace GcModule
set_option autoImplicit true

section
variable {σ : Sys} {t : Nat} {ws : List Write} {ev : Event}

theorem Sys.stores_completes (hpc : (σ.threads t).pc = .stores ws ev) :
    ∃ σ', Relation.ReflTransGen (Step d t) σ σ' ∧ σ'.log = (σ.release t ev).log ∧
      σ'.threads t = (σ.release t ev).threads t := by
  induction ws generalizing σ with
  | nil => exact ⟨_, .single (.run (by rw [hpc]; rfl)), rfl, rfl⟩
  | cons w ws ih =>
    obtain ⟨σ', hr, hlog, hth⟩ :=
      ih (σ := { σ with mem := w.apply σ.mem }.setPc t (.stores ws ev)) (by simp)
    refine ⟨σ', .head (.run (by rw [hpc]; rfl)) hr, by simp [hlog, Sys.release], ?_⟩
    rw [hth]
    cases ev <;> simp [Sys.release]

theorem Inv.create_completes (hi : Inv σ) (hpc : (σ.threads t).pc = .createAlloc v)
    (hx : σ.inUse x = false) :
    ∃ σ', Relation.ReflTransGen (Step d t) σ σ' ∧ σ'.log = σ.log ++ [.created x] ∧
      σ'.threads t = ⟨.idle, x :: (σ.threads t).handles⟩ := by
  let σ₁ := ({ σ with
    mem := σ.mem.write x (emptyHeader σ.mem σ.list d)
    inUse := Function.update σ.inUse x true }).setPc t (.createCheck x v)
  have h₁ : Step d t σ σ₁ := .alloc hpc hx
  have hpc₁ : (σ₁.threads t).pc = .createCheck x v := by simp [σ₁]
  obtain ⟨ht, hrep, -, hnext, hlock, -⟩ := (hi.step h₁).locked hpc₁ rfl
  have ht' : σ₁.mutex (σ₁.mem σ₁.list).linkedListLock = some t := ht
  have hc : insertChecks σ₁ x = true := by simp [insertChecks, hnext, hlock, ht']
  obtain ⟨n, -, -, hn, -⟩ := hrep.exists_head
  have h₂ : Step d t σ₁ (σ₁.setPc t (.createRead x v)) :=
    .run (by rw [hpc₁]; simp only [Sys.step, hc, ↓reduceIte])
  have h₃ : Step d t (σ₁.setPc t (.createRead x v))
      (σ₁.setPc t (.stores (insertWrites σ₁.list x n v) (.created x))) :=
    .run (by simp [Sys.step, hn])
  obtain ⟨σ', h₄, hlog, hth⟩ := Sys.stores_completes (d := d)
    (σ := σ₁.setPc t (.stores (insertWrites σ₁.list x n v) (.created x))) Sys.setPc_self
  exact ⟨σ', .head h₁ (.head h₂ (.head h₃ h₄)), by simp [hlog, Sys.release, σ₁],
    by simp [hth, Sys.release, Event.after, σ₁]⟩

theorem Inv.remove_completes (hi : Inv σ) (hpc : (σ.threads t).pc = .removeCheckNext x) :
    ∃ σ', Relation.ReflTransGen (Step d t) σ σ' ∧ σ'.log = σ.log ++ [.removed x] ∧
      σ'.threads t = ⟨.idle, (σ.threads t).handles⟩ := by
  obtain ⟨-, hrep, hx⟩ := hi.locked hpc rfl
  obtain ⟨n, hn, -⟩ := hrep.exists_next (List.mem_cons_of_mem _ hx)
  obtain ⟨p, -, hp⟩ := hrep.exists_prev (List.mem_cons_of_mem _ hx)
  have h₁ : Step d t σ (σ.setPc t (.removeCheckPrev x)) := .run (by simp [hpc, Sys.step, hn])
  have h₂ : Step d t (σ.setPc t (.removeCheckPrev x)) (σ.setPc t (.removeReadNext x)) :=
    .run (by simp [Sys.step, hp])
  have h₃ : Step d t (σ.setPc t (.removeReadNext x)) (σ.setPc t (.removeReadPrev x n)) :=
    .run (by simp [Sys.step, hn])
  have h₄ : Step d t (σ.setPc t (.removeReadPrev x n))
      (σ.setPc t (.stores (removeWrites x n p) (.removed x))) :=
    .run (by simp [Sys.step, hp])
  obtain ⟨σ', h₅, hlog, hth⟩ := Sys.stores_completes (d := d)
    (σ := σ.setPc t (.stores (removeWrites x n p) (.removed x))) Sys.setPc_self
  exact ⟨σ', .head h₁ (.head h₂ (.head h₃ (.head h₄ h₅))), by simp [hlog, Sys.release],
    by simp [hth, Sys.release, Event.after]⟩

/-- A called `create` returns once the section under way ends, having linked a fresh header. -/
theorem Reachable.create_returns (h : Reachable s ℓ d σ) (hpc : (σ.threads t).pc = .createLock v) :
    ∃ σ₁ σ₂ x, Finishing d σ σ₁ ∧ Relation.ReflTransGen (Step d t) σ₁ σ₂ ∧
      x ∉ σ₁.list :: liveOf σ₁.log ∧ σ₂.log = σ₁.log ++ [.created x] ∧
      σ₂.threads t = ⟨.idle, x :: (σ.threads t).handles⟩ := by
  obtain ⟨σ₁, hr, hth, hf⟩ := h.free_lock (t := t) (by simp [hpc, Pc.locked])
  have h₁ := h.runs (Runs.of_finishing hr)
  have hi₁ := Inv.reachable h₁
  obtain ⟨x, hx⟩ := h₁.exists_free
  have hs : Step d t σ₁
      ({ σ₁ with mutex := Function.update σ₁.mutex σ₁.lock (some t) }.setPc t (.createAlloc v)) :=
    .run (by rw [hth, hpc]; exact Sys.acquire_of_free hf)
  obtain ⟨σ₂, hr₂, hlog, hth₂⟩ := (hi₁.step hs).create_completes (t := t) (v := v) (by simp) hx
  exact ⟨σ₁, σ₂, x, hr, .head hs hr₂, fun hm => by simp [hi₁.inUse_live x hm] at hx,
    by simpa using hlog, by simpa [hth] using hth₂⟩

theorem Reachable.remove_returns (h : Reachable s ℓ d σ) (hpc : (σ.threads t).pc = .removeLock x) :
    ∃ σ₁ σ₂, Finishing d σ σ₁ ∧ Relation.ReflTransGen (Step d t) σ₁ σ₂ ∧
      x ∈ liveOf σ₁.log ∧ σ₂.log = σ₁.log ++ [.removed x] ∧
      σ₂.threads t = ⟨.idle, (σ.threads t).handles⟩ := by
  obtain ⟨σ₁, hr, hth, hf⟩ := h.free_lock (t := t) (by simp [hpc, Pc.locked])
  have hi₁ := Inv.reachable (h.runs (Runs.of_finishing hr))
  have hx : x ∈ liveOf σ₁.log := hi₁.owned_live t x (by simp [Sys.owned, hth, hpc, Pc.removing])
  have hs : Step d t σ₁ ({ σ₁ with mutex := Function.update σ₁.mutex σ₁.lock (some t) }.setPc t
      (.removeCheckNext x)) :=
    .run (by
      rw [hth, hpc]
      show σ₁.acquire t _ _ = _
      rw [hi₁.lock_live x hx]
      exact Sys.acquire_of_free hf)
  obtain ⟨σ₂, hr₂, hlog, hth₂⟩ := (hi₁.step hs).remove_completes (t := t) (x := x) (by simp)
  exact ⟨σ₁, σ₂, hr, .head hs hr₂, hx, by simpa using hlog, by simpa [hth] using hth₂⟩

theorem Reachable.count_returns (h : Reachable s ℓ d σ)
    (hpc : (σ.threads t).pc = .visitLock .count) :
    ∃ σ₁ σ₂, Finishing d σ σ₁ ∧ Relation.ReflTransGen (Step d t) σ₁ σ₂ ∧
      σ₂.log = σ₁.log ++ [.counted (liveOf σ₁.log).length] ∧ (σ₂.threads t).pc = .idle := by
  obtain ⟨σ₁, hr, hth, hf⟩ := h.free_lock (t := t) (by simp [hpc, Pc.locked])
  have hs : Step d t σ₁ ({ σ₁ with mutex := Function.update σ₁.mutex σ₁.lock (some t) }.setPc t
      (.visitStart .count)) :=
    .run (by rw [hth, hpc]; exact Sys.acquire_of_free hf)
  have hi₁ := Inv.reachable (h.runs (Runs.of_finishing hr))
  obtain ⟨σ₂, hr₂, hlog, hpc₂⟩ := (hi₁.step hs).walk_completes (t := t) (w := .count) (by simp)
  exact ⟨σ₁, σ₂, hr, .head hs hr₂, by simpa [Walker.event] using hlog,
    by simpa [Walker.event, Event.after] using hpc₂⟩

end

/-- What holds of every state of threads sharing a space: one thread inside the lock, the list
linked over the live headers, counts right, called operations returning, no assertion failing. -/
structure Consistent (dummyVptr : Nat) (σ : Sys) : Prop where
  exclusive :
    ∀ t t', (σ.threads t).pc.locked = true → (σ.threads t').pc.locked = true → t = t'
  only_holder_writes :
    ∀ t σ', Step dummyVptr t σ σ' → σ'.mem ≠ σ.mem → σ.mutex σ.lock = some t
  same_lock : ∀ x ∈ liveOf σ.log, (σ.mem x).linkedListLock = σ.lock
  observed : σ.mutex σ.lock = none → Observed σ.mem σ.list (liveOf σ.log)
  count_live :
    ∀ x, (liveOf σ.log).count x + σ.log.count (.removed x) = σ.log.count (.created x)
  count_tracked : ∀ i n, σ.log[i]? = some (.counted n) → n = (liveOf (σ.log.take i)).length
  create_returns : ∀ t v, (σ.threads t).pc = .createLock v →
    ∃ σ₁ σ₂ x, Finishing dummyVptr σ σ₁ ∧ Relation.ReflTransGen (Step dummyVptr t) σ₁ σ₂ ∧
      x ∉ σ₁.list :: liveOf σ₁.log ∧ σ₂.log = σ₁.log ++ [.created x] ∧
      σ₂.threads t = ⟨.idle, x :: (σ.threads t).handles⟩
  remove_returns : ∀ t x, (σ.threads t).pc = .removeLock x →
    ∃ σ₁ σ₂, Finishing dummyVptr σ σ₁ ∧ Relation.ReflTransGen (Step dummyVptr t) σ₁ σ₂ ∧
      x ∈ liveOf σ₁.log ∧ σ₂.log = σ₁.log ++ [.removed x] ∧
      σ₂.threads t = ⟨.idle, (σ.threads t).handles⟩
  count_returns : ∀ t, (σ.threads t).pc = .visitLock .count →
    ∃ σ₁ σ₂, Finishing dummyVptr σ σ₁ ∧ Relation.ReflTransGen (Step dummyVptr t) σ₁ σ₂ ∧
      σ₂.log = σ₁.log ++ [.counted (liveOf σ₁.log).length] ∧ (σ₂.threads t).pc = .idle
  no_fault : ∀ t, (σ.threads t).pc ≠ .fault

theorem interleavings_keep_list_consistent (h : Reachable s ℓ d σ) : Consistent d σ := by
  have hi := Inv.reachable h
  refine ⟨fun t t' h₁ h₂ => ?_, fun t σ' hs hm => ?_, hi.lock_live,
    fun h => (hi.free h).observed, hi.serial.count_live, fun i n h => hi.serial.valid_at h,
    fun t v => h.create_returns, fun t x => h.remove_returns, fun t => h.count_returns,
    hi.no_fault⟩
  · exact Option.some.inj (((hi.holder t).1 h₁).symm.trans ((hi.holder t').1 h₂))
  · by_contra hne
    exact hm (hs.mem_eq (Bool.eq_false_iff.2 fun hl => hne ((hi.holder t).1 hl)))

theorem interleavings_keep_list_consistent_two_creates :
    ∃ σ, Reachable 0 4 5 σ ∧ liveOf σ.log = [2, 1] ∧ σ.mutex σ.lock = none ∧ Consistent 5 σ := by
  obtain ⟨σ, h, hl, hf⟩ := reachable_two_creates
  exact ⟨σ, h, by rw [hl]; rfl, hf, interleavings_keep_list_consistent h⟩

end GcModule
