import GcModule.Sync.Exclusion

namespace GcModule
set_option autoImplicit true

def Write.addr : Write → Addr
  | .next a _ | .prev a _ | .vptr a _ => a

theorem Write.apply_of_ne (w : Write) (h : b ≠ w.addr) : w.apply m b = m b := by
  cases w <;> simp only [Write.addr] at h <;>
    simp [Write.apply, Mem.setNext, Mem.setPrev, Mem.setVptr, h]

/-- The headers the next step of a thread at `pc` dereferences. -/
def Pc.deref (list : Addr) : Pc → List Addr
  | .createLock _ | .visitLock _ | .createRead _ _ | .visitStart _ => [list]
  | .createCheck x _ => [x, list]
  | .removeLock x | .removeCheckNext x | .removeCheckPrev x | .removeReadNext x
  | .removeReadPrev x _ => [x]
  | .stores (w :: _) _ => [w.addr]
  | .visitLoop _ (some p) _ => [p]
  | _ => []

theorem Represents.next_mem (h : Represents m s L) (hx : x ∈ s :: L)
    (hn : (m x).next = some n) : n ∈ s :: L := by
  obtain ⟨y, hy, hl⟩ := chain'_succ_mem h.chain x hx
  obtain rfl : n = y := Option.some.inj (hn.symm.trans hl.1)
  rcases List.mem_append.1 hy with hy | hy
  exacts [hy, List.mem_singleton.1 hy ▸ List.mem_cons_self s L]

theorem Represents.prev_mem (h : Represents m s L) (hx : x ∈ s :: L)
    (hp : (m x).prev = some p) : p ∈ s :: L := by
  have hc : (s :: L.reverse ++ [s]).Chain' (flip (Linked m)) := by
    simpa using (@List.chain'_reverse _ (flip (Linked m)) _).2 h.chain
  obtain ⟨y, hy, hl⟩ := chain'_succ_mem hc x (by simpa using hx)
  obtain rfl : p = y := Option.some.inj (hp.symm.trans hl.2)
  rcases List.mem_append.1 hy with hy | hy
  · simpa using hy
  · exact List.mem_singleton.1 hy ▸ List.mem_cons_self s L

/-- The stores a thread has still to make go to allocated headers. -/
def StoresAllocated (σ : Sys) : Prop :=
  ∀ t ws ev, (σ.threads t).pc = .stores ws ev → ∀ w ∈ ws, σ.inUse w.addr = true

section
variable {σ σ' : Sys} {t t' : Nat} {pc : Pc}

theorem Inv.release_unlocks (hi : Inv σ) (hpc : (σ.threads t).pc = .stores [] ev) :
    (σ.release t ev).mutex (σ.release t ev).lock = none := by
  obtain ⟨-, -, hc⟩ := hi.locked hpc rfl
  have hguard : (σ.mem (ev.guard σ.list)).linkedListLock = σ.lock := by
    cases ev with
    | removed x => exact hi.lock_live x hc
    | _ => rfl
  rw [show (σ.release t ev).lock = σ.lock from rfl]
  simp [Sys.release, hguard]

theorem Sys.setPc_self : ((σ.setPc t pc).threads t).pc = pc := by simp

theorem Sys.step_cases (h : σ.step t pc = some σ') :
    (∃ ev, pc = .stores [] ev ∧ σ' = σ.release t ev) ∨
    ∃ m μ w pc', σ' = { σ with mem := m, mutex := μ, writer := w }.setPc t pc' ∧
      (m = σ.mem ∨ ∃ wr ws ev, pc = .stores (wr :: ws) ev ∧ m = wr.apply σ.mem) := by
  cases pc with
  | stores ws ev =>
    cases ws with
    | nil => exact .inl ⟨ev, rfl, (Option.some.inj h).symm⟩
    | cons w ws => exact .inr ⟨_, _, _, _, (Option.some.inj h).symm, .inr ⟨w, ws, ev, rfl, rfl⟩⟩
  | createLock _ | removeLock _ | visitLock _ =>
    obtain ⟨-, rfl⟩ := Sys.acquire_eq_some h
    exact .inr ⟨_, _, _, _, rfl, .inl rfl⟩
  | collectWrite =>
    simp only [Sys.step] at h
    split at h <;> cases h
    exact .inr ⟨_, _, _, _, rfl, .inl rfl⟩
  | idle | createAlloc _ | fault => cases h
  | visitLoop _ ptr _ =>
    cases ptr <;> (cases h; exact .inr ⟨σ.mem, σ.mutex, σ.writer, _, rfl, .inl rfl⟩)
  | collectRelease => cases h; exact .inr ⟨_, _, _, _, rfl, .inl rfl⟩
  | _ => cases h; exact .inr ⟨σ.mem, σ.mutex, σ.writer, _, rfl, .inl rfl⟩

theorem Step.threads_ne (hs : Step d t σ σ') (ht : t' ≠ t) : σ'.threads t' = σ.threads t' := by
  cases hs with
  | run h =>
    rcases Sys.step_cases h with ⟨ev, -, rfl⟩ | ⟨m, μ, w, pc', rfl, -⟩ <;>
      simp [Sys.release, ht]
  | _ => simp [ht]

theorem Step.inUse_eq (hs : Step d t σ σ') (hl : (σ.threads t).pc.locked = false) :
    σ'.inUse = σ.inUse := by
  cases hs with
  | alloc h => simp [h, Pc.locked] at hl
  | run h =>
    rcases Sys.step_cases h with ⟨ev, hpc, -⟩ | ⟨m, μ, w, pc', rfl, -⟩
    · simp [hpc, Pc.locked] at hl
    · rfl
  | _ => rfl

theorem StoresAllocated.code (hi : Inv σ) (ha : StoresAllocated σ)
    (h : σ.step t (σ.threads t).pc = some σ') (hpc' : (σ'.threads t).pc = .stores ws ev) :
    ∀ w ∈ ws, σ'.inUse w.addr = true := by
  generalize hpc : (σ.threads t).pc = pc at h
  cases pc with
  | createRead x v =>
    obtain ⟨-, hrep, -, -, -, hu⟩ := hi.locked hpc rfl
    obtain ⟨n, -, -, hn, -⟩ := hrep.exists_head
    cases h
    rw [Sys.setPc_self] at hpc'
    simp only [hn, Pc.stores.injEq] at hpc'
    obtain ⟨rfl, rfl⟩ := hpc'
    have hnL := hi.inUse_live n (hrep.next_mem (List.mem_cons_self _ _) hn)
    simp [GcModule.insertWrites, Write.addr, hu, hnL, hi.inUse_live _ (List.mem_cons_self _ _)]
  | removeReadPrev x n =>
    obtain ⟨-, hrep, hx, hn⟩ := hi.locked hpc rfl
    obtain ⟨p, -, hp⟩ := hrep.exists_prev (List.mem_cons_of_mem _ hx)
    have hxL := List.mem_cons_of_mem σ.list hx
    cases h
    rw [Sys.setPc_self] at hpc'
    simp only [hp, Pc.stores.injEq] at hpc'
    obtain ⟨rfl, rfl⟩ := hpc'
    simp [GcModule.removeWrites, Write.addr, hi.inUse_live _ (hrep.prev_mem hxL hp),
      hi.inUse_live _ (hrep.next_mem hxL hn), hi.inUse_live _ hxL]
  | stores ws' ev' =>
    cases ws' with
    | nil => cases h; cases ev' <;> simp [Sys.release, Event.after] at hpc'
    | cons w' ws' =>
      cases h
      rw [Sys.setPc_self, Pc.stores.injEq] at hpc'
      obtain ⟨rfl, rfl⟩ := hpc'
      exact fun w hw => ha t _ _ hpc w (List.mem_cons_of_mem _ hw)
  | visitLoop w' ptr n' =>
    cases ptr with
    | none => cases h; simp at hpc'
    | some p =>
      cases h
      rw [Sys.setPc_self] at hpc'
      split at hpc'
      · cases hpc'; simp
      · cases hpc'
  | createLock _ | removeLock _ | visitLock _ =>
    obtain ⟨-, rfl⟩ := Sys.acquire_eq_some h
    simp at hpc'
  | collectWrite =>
    simp only [Sys.step] at h
    split at h <;> cases h
    simp at hpc'
  | idle | createAlloc _ | fault => cases h
  | _ =>
    cases h
    rw [Sys.setPc_self] at hpc'
    repeat' split at hpc'
    all_goals cases hpc'

theorem StoresAllocated.step (hi : Inv σ) (ha : StoresAllocated σ) (hs : Step d t σ σ') :
    StoresAllocated σ' := by
  intro t' ws ev hpc' w hw
  by_cases htt : t' = t
  · subst htt
    cases hs with
    | run h => exact ha.code hi h hpc' w hw
    | _ => simp at hpc'
  · have hpc : (σ.threads t').pc = .stores ws ev := hs.threads_ne htt ▸ hpc'
    have hl : (σ.threads t).pc.locked = false := by
      by_contra hl
      have h₁ := (hi.holder t).1 (Bool.not_eq_false _ ▸ hl)
      have h₂ := (hi.holder t').1 (by simp [hpc, Pc.locked])
      exact htt (Option.some.inj (h₂.symm.trans h₁))
    rw [hs.inUse_eq hl]
    exact ha t' ws ev hpc w hw

theorem StoresAllocated.reachable (h : Reachable s ℓ d σ) : StoresAllocated σ := by
  induction h with
  | init => intro t ws ev h; simp [Sys.init] at h
  | step hσ hs ih => exact ih.step (Inv.reachable hσ) hs

end

/-- No step touches a freed header, the space outliving its objects (no step drops the space). -/
theorem steps_touch_allocated_headers (h : Reachable s ℓ d σ) :
    (∀ t, ∀ a ∈ (σ.threads t).pc.deref σ.list, σ.inUse a = true) ∧
    ∀ t σ' a, Step d t σ σ' → σ'.mem a ≠ σ.mem a → σ'.inUse a = true := by
  have hi := Inv.reachable h
  have ha := StoresAllocated.reachable h
  have hlist := hi.inUse_live σ.list (List.mem_cons_self _ _)
  refine ⟨fun t a hmem => ?_, fun t σ' a hs hne => ?_⟩
  · have howned : ∀ x ∈ (σ.threads t).pc.removing, σ.inUse x = true := fun x hx =>
      hi.inUse_live x (List.mem_cons_of_mem _ (hi.owned_live t x (by simp [Sys.owned, hx])))
    generalize hpc : (σ.threads t).pc = pc at hmem howned
    cases pc with
    | createLock _ | visitLock _ | createRead _ _ | visitStart _ =>
      simp only [Pc.deref, List.mem_singleton] at hmem
      exact hmem ▸ hlist
    | createCheck x v =>
      obtain ⟨-, -, -, -, -, hu⟩ := hi.locked hpc rfl
      simp only [Pc.deref, List.mem_cons, List.mem_singleton, List.not_mem_nil, or_false] at hmem
      rcases hmem with rfl | rfl
      exacts [hu, hlist]
    | removeLock x | removeCheckNext x | removeCheckPrev x | removeReadNext x
    | removeReadPrev x _ =>
      simp only [Pc.deref, List.mem_singleton] at hmem
      exact hmem ▸ howned x (List.mem_singleton_self x)
    | stores ws ev =>
      cases ws with
      | nil => simp [Pc.deref] at hmem
      | cons w ws =>
        simp only [Pc.deref, List.mem_singleton] at hmem
        exact hmem ▸ ha t _ _ hpc w (List.mem_cons_self w ws)
    | visitLoop w ptr n =>
      cases ptr with
      | none => simp [Pc.deref] at hmem
      | some p =>
        obtain ⟨-, -, pre, suf, hL, -, hptr⟩ := hi.locked hpc rfl
        simp only [Pc.deref, List.mem_singleton] at hmem
        subst hmem
        have hp := List.mem_of_mem_head? hptr.symm
        refine hi.inUse_live a ?_
        rw [hL]
        simp only [List.mem_append, List.mem_singleton] at hp
        rcases hp with hp | rfl
        · simp [hp]
        · simp
    | idle | createAlloc _ | collectWrite | collectRelease | fault => simp [Pc.deref] at hmem
  · cases hs with
    | @alloc _ v x _ _ =>
      by_cases hax : a = x
      · simp [hax]
      · simp [hax] at hne
    | run h =>
      rcases Sys.step_cases h with ⟨ev, -, rfl⟩ | ⟨m, μ, w, pc', rfl, hm | ⟨wr, ws, ev, hpc, rfl⟩⟩
      · exact absurd rfl hne
      · exact absurd (by simp [hm]) hne
      · obtain rfl : a = wr.addr := by
          by_contra hax
          exact hne (by simpa using wr.apply_of_ne hax)
        exact ha t _ _ hpc wr (List.mem_cons_self wr ws)
    | _ => exact absurd rfl hne

theorem steps_touch_allocated_headers_mid_create :
    ∃ σ, Reachable 0 4 5 σ ∧ (σ.threads 0).pc.deref σ.list = [2] ∧
      (σ.threads 1).pc.deref σ.list = [1] ∧
      (∀ t, ∀ a ∈ (σ.threads t).pc.deref σ.list, σ.inUse a = true) ∧
      ∀ t σ' a, Step 5 t σ σ' → σ'.mem a ≠ σ.mem a → σ'.inUse a = true := by
  obtain ⟨σ, h, h₁, h₀, -⟩ := reachable_mid_create
  exact ⟨σ, h, by rw [h₀]; rfl, by rw [h₁]; rfl, steps_touch_allocated_headers h⟩

/-- The steps that read or write a header's `next`, `prev` or vtable pointer. -/
def Pc.touchesCells : Pc → Bool
  | .createCheck _ _ | .createRead _ _ | .removeCheckNext _ | .removeCheckPrev _
  | .removeReadNext _ | .removeReadPrev _ _ | .stores (_ :: _) _ | .visitStart _
  | .visitLoop _ (some _) _ => true
  | _ => false

theorem Pc.locked_of_touchesCells {pc : Pc} (h : pc.touchesCells = true) : pc.locked = true := by
  cases pc <;> simp_all [Pc.touchesCells, Pc.locked]

/-- Header cells are touched only under the list lock, the one `remove` takes through its header. -/
theorem cell_accesses_hold_list_lock (h : Reachable s ℓ d σ) :
    (∀ t, (σ.threads t).pc.touchesCells = true → σ.mutex σ.lock = some t) ∧
    ∀ t x, (σ.threads t).pc = .removeLock x → (σ.mem x).linkedListLock = σ.lock := by
  have hi := Inv.reachable h
  exact ⟨fun t ht => (hi.holder t).1 (Pc.locked_of_touchesCells ht),
    fun t x hpc => hi.lock_live x (hi.owned_live t x (by simp [Sys.owned, hpc, Pc.removing]))⟩

theorem cell_accesses_hold_list_lock_mid_create :
    ∃ σ, Reachable 0 4 5 σ ∧ (σ.threads 0).pc.touchesCells = true ∧
      (σ.threads 1).pc = .removeLock 1 ∧
      (∀ t, (σ.threads t).pc.touchesCells = true → σ.mutex σ.lock = some t) ∧
      ∀ t x, (σ.threads t).pc = .removeLock x → (σ.mem x).linkedListLock = σ.lock := by
  obtain ⟨σ, h, h₁, h₀, -⟩ := reachable_mid_create
  exact ⟨σ, h, by rw [h₀]; rfl, h₁, cell_accesses_hold_list_lock h⟩

end GcModule
