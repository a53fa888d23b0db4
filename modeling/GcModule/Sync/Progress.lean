import GcModule.Sync.Allocation

namespace GcModule
set_option autoImplicit true

section
variable {σ σ' : Sys} {t t' : Nat} {pc : Pc}

theorem Sys.acquire_of_free (hm : σ.mutex ℓ = none) :
    σ.acquire t ℓ pc = some ({ σ with mutex := Function.update σ.mutex ℓ (some t) }.setPc t pc) :=
  by simp [Sys.acquire, hm]

theorem Step.inUse_new (hs : Step d t σ σ') :
    ∃ x, ∀ a, σ'.inUse a = true → σ.inUse a = true ∨ a = x := by
  cases hs with
  | @alloc _ v x _ _ =>
    refine ⟨x, fun a ha => ?_⟩
    by_cases hax : a = x
    · exact .inr hax
    · simp [hax] at ha; exact .inl ha
  | run h =>
    refine ⟨0, fun a ha => .inl ?_⟩
    rcases Sys.step_cases h with ⟨ev, -, rfl⟩ | ⟨m, μ, w, pc', rfl, -⟩
    · cases ev <;> simp_all [Sys.release, Function.update_apply]
    · exact ha
  | _ => exact ⟨0, fun a ha => .inl ha⟩

theorem Reachable.bounded (h : Reachable s ℓ d σ) : ∃ N, ∀ a, N ≤ a → σ.inUse a = false := by
  induction h with
  | init => exact ⟨s + 1, fun a ha => by simp [Sys.init, Nat.ne_of_gt ha]⟩
  | @step σ₁ _ σ₂ _ hs ih =>
    obtain ⟨N, hN⟩ := ih
    obtain ⟨x, hx⟩ := hs.inUse_new
    refine ⟨max N (x + 1), fun a ha => ?_⟩
    cases h' : σ₂.inUse a with
    | false => rfl
    | true =>
      rcases hx a h' with h'' | rfl
      · simp [hN a ((le_max_left N (x + 1)).trans ha)] at h''
      · exact absurd ((le_max_right N (a + 1)).trans ha) (Nat.not_succ_le_self a)

theorem Reachable.exists_free (h : Reachable s ℓ d σ) : ∃ x, σ.inUse x = false :=
  let ⟨N, hN⟩ := h.bounded
  ⟨N, hN N le_rfl⟩

/-- Steps the holder at `pc` has left before its guard drops, over a list of `len` headers. -/
def Pc.left (len : Nat) : Pc → Nat
  | .createAlloc _ => 9
  | .createCheck _ _ => 8
  | .createRead _ _ => 7
  | .removeCheckNext _ => 8
  | .removeCheckPrev _ => 7
  | .removeReadNext _ => 6
  | .removeReadPrev _ _ => 5
  | .stores ws _ => ws.length + 1
  | .visitStart _ => len + 3
  | .visitLoop _ _ n => len - n + 2
  | _ => 0

theorem Inv.holder_advances (hi : Inv σ) (ht : σ.mutex σ.lock = some t)
    (hx : σ.inUse x = false) :
    ∃ σ', Step d t σ σ' ∧ ((∃ ev, (σ.threads t).pc = .stores [] ev ∧ σ' = σ.release t ev) ∨
      ((σ'.threads t).pc.locked = true ∧ σ'.log = σ.log ∧
        (σ'.threads t).pc.left (liveOf σ.log).length <
          (σ.threads t).pc.left (liveOf σ.log).length)) := by
  have hl : (σ.threads t).pc.locked = true := (hi.holder t).2 ht
  generalize hpc : (σ.threads t).pc = pc at hl
  cases pc with
  | createAlloc v =>
    exact ⟨_, .alloc hpc hx, .inr ⟨by simp [Pc.locked], rfl, by simp [hpc, Pc.left]⟩⟩
  | createCheck x v =>
    obtain ⟨-, -, -, hnext, hlock, -⟩ := hi.locked hpc rfl
    have ht' : σ.mutex (σ.mem σ.list).linkedListLock = some t := ht
    have hc : insertChecks σ x = true := by simp [insertChecks, hnext, hlock, ht']
    exact ⟨σ.setPc t (.createRead x v), .run (by simp [hpc, Sys.step, hc]),
      .inr ⟨by simp [Pc.locked], rfl, by simp [hpc, Pc.left]⟩⟩
  | createRead x v =>
    obtain ⟨-, hrep, -⟩ := hi.locked hpc rfl
    obtain ⟨n, -, -, hn, -⟩ := hrep.exists_head
    exact ⟨σ.setPc t (.stores (insertWrites σ.list x n v) (.created x)),
      .run (by simp [hpc, Sys.step, hn]),
      .inr ⟨by simp [Pc.locked], rfl, by simp [hpc, Pc.left, GcModule.insertWrites]⟩⟩
  | removeCheckNext x =>
    obtain ⟨-, hrep, hx⟩ := hi.locked hpc rfl
    obtain ⟨y, hy, -⟩ := hrep.exists_next (List.mem_cons_of_mem _ hx)
    exact ⟨σ.setPc t (.removeCheckPrev x), .run (by simp [hpc, Sys.step, hy]),
      .inr ⟨by simp [Pc.locked], rfl, by simp [hpc, Pc.left]⟩⟩
  | removeCheckPrev x =>
    obtain ⟨-, hrep, hx⟩ := hi.locked hpc rfl
    obtain ⟨y, -, hy⟩ := hrep.exists_prev (List.mem_cons_of_mem _ hx)
    exact ⟨σ.setPc t (.removeReadNext x), .run (by simp [hpc, Sys.step, hy]),
      .inr ⟨by simp [Pc.locked], rfl, by simp [hpc, Pc.left]⟩⟩
  | removeReadNext x =>
    obtain ⟨-, hrep, hx⟩ := hi.locked hpc rfl
    obtain ⟨n, hn, -⟩ := hrep.exists_next (List.mem_cons_of_mem _ hx)
    exact ⟨σ.setPc t (.removeReadPrev x n), .run (by simp [hpc, Sys.step, hn]),
      .inr ⟨by simp [Pc.locked], rfl, by simp [hpc, Pc.left]⟩⟩
  | removeReadPrev x n =>
    obtain ⟨-, hrep, hx, -⟩ := hi.locked hpc rfl
    obtain ⟨p, -, hp⟩ := hrep.exists_prev (List.mem_cons_of_mem _ hx)
    exact ⟨σ.setPc t (.stores (removeWrites x n p) (.removed x)),
      .run (by simp [hpc, Sys.step, hp]),
      .inr ⟨by simp [Pc.locked], rfl, by simp [hpc, Pc.left, GcModule.removeWrites]⟩⟩
  | stores ws ev =>
    cases ws with
    | nil => exact ⟨_, .run (by simp [hpc, Sys.step]), .inl ⟨ev, rfl, rfl⟩⟩
    | cons w ws =>
      exact ⟨{ σ with mem := w.apply σ.mem }.setPc t (.stores ws ev),
        .run (by simp [hpc, Sys.step]), .inr ⟨by simp [Pc.locked], rfl, by simp [hpc, Pc.left]⟩⟩
  | visitStart w =>
    exact ⟨σ.setPc t (.visitLoop w (σ.mem σ.list).next 0), .run (by simp [hpc, Sys.step]),
      .inr ⟨by simp [Pc.locked], rfl, by simp [hpc, Pc.left]⟩⟩
  | visitLoop w ptr n =>
    obtain ⟨-, hrep, pre, suf, hL, hn, hptr⟩ := hi.locked hpc rfl
    cases ptr with
    | none => cases suf <;> simp at hptr
    | some p =>
      rcases hrep.walk_at hL hptr with ⟨rfl, rfl⟩ | ⟨hp, suf, rfl⟩
      · exact ⟨σ.setPc t (.stores [] (w.event n)), .run (by simp [hpc, Sys.step]),
          .inr ⟨by simp [Pc.locked], rfl, by simp [hpc, Pc.left]⟩⟩
      · have hlen : n < (liveOf σ.log).length := by simp [hL, ← hn]
        exact ⟨σ.setPc t (.visitLoop w (σ.mem p).next (n + 1)), .run (by simp [hpc, Sys.step, hp]),
          .inr ⟨by simp [Pc.locked], rfl, by simp [hpc, Pc.left]; omega⟩⟩
  | _ => simp [Pc.locked] at hl

end

def Busy (d t : Nat) (σ σ' : Sys) : Prop := (σ.threads t).pc ≠ .idle ∧ Step d t σ σ'

/-- The holder of the list lock runs its section to the end by its own steps. -/
theorem Reachable.holder_releases (h : Reachable s ℓ d σ) (ht : σ.mutex σ.lock = some t) :
    ∃ σ' ev, Relation.ReflTransGen (Busy d t) σ σ' ∧ σ'.log = σ.log ++ [ev] ∧
      σ'.mutex σ'.lock = none ∧ (σ'.threads t).pc = ev.after := by
  suffices ∀ k σ, Reachable s ℓ d σ → σ.mutex σ.lock = some t →
      (σ.threads t).pc.left (liveOf σ.log).length < k → ∃ σ' ev,
        Relation.ReflTransGen (Busy d t) σ σ' ∧ σ'.log = σ.log ++ [ev] ∧
          σ'.mutex σ'.lock = none ∧ (σ'.threads t).pc = ev.after from
    this _ σ h ht (Nat.lt_succ_self _)
  intro k
  induction k with
  | zero => intro σ _ _ hk; omega
  | succ k ih =>
    intro σ h ht hk
    have hi := Inv.reachable h
    have hne : (σ.threads t).pc ≠ .idle := fun h₀ => by
      have hl := (hi.holder t).2 ht
      rw [h₀] at hl
      cases hl
    obtain ⟨x, hx⟩ := h.exists_free
    obtain ⟨σ', hs, ⟨ev, hpc, rfl⟩ | ⟨hl, hlog, hlt⟩⟩ := hi.holder_advances (d := d) ht hx
    · exact ⟨_, ev, .single ⟨hne, hs⟩, rfl, hi.release_unlocks hpc, by simp [Sys.release]⟩
    · have h' := h.step hs
      obtain ⟨σ'', ev, hr, hlog', hfree, hpc⟩ :=
        ih σ' h' (((Inv.reachable h').holder t).1 hl) (by rw [hlog]; omega)
      exact ⟨σ'', ev, .head ⟨hne, hs⟩ hr, by rw [hlog', hlog], hfree, hpc⟩

/-- A section never waits: the lock holder finishes it alone, recording one more section. -/
theorem lock_holder_finishes (h : Reachable s ℓ d σ) (ht : σ.mutex σ.lock = some t) :
    ∃ σ' ev, Relation.ReflTransGen (Step d t) σ σ' ∧ σ'.log = σ.log ++ [ev] ∧
      σ'.mutex σ'.lock = none :=
  let ⟨σ', ev, hr, hlog, hfree, _⟩ := h.holder_releases ht
  ⟨σ', ev, Relation.ReflTransGen.mono (fun _ _ hb => hb.2) hr, hlog, hfree⟩

theorem lock_holder_finishes_create :
    Reachable 0 4 5 ({ (Sys.init 0 4 5).setPc 0 (.createLock 7) with
        mutex := Function.update (Sys.init 0 4 5).mutex 4 (some 0) }.setPc 0 (.createAlloc 7)) ∧
    ({ (Sys.init 0 4 5).setPc 0 (.createLock 7) with
        mutex := Function.update (Sys.init 0 4 5).mutex 4 (some 0) }.setPc 0 (.createAlloc 7)).mutex
      ({ (Sys.init 0 4 5).setPc 0 (.createLock 7) with
        mutex := Function.update (Sys.init 0 4 5).mutex 4 (some 0) }.setPc 0 (.createAlloc 7)).lock =
      some 0 ∧
    ∃ σ' ev, Relation.ReflTransGen (Step 5 0) ({ (Sys.init 0 4 5).setPc 0 (.createLock 7) with
        mutex := Function.update (Sys.init 0 4 5).mutex 4 (some 0) }.setPc 0 (.createAlloc 7)) σ' ∧
      σ'.log = ({ (Sys.init 0 4 5).setPc 0 (.createLock 7) with
        mutex := Function.update (Sys.init 0 4 5).mutex 4 (some 0) }.setPc 0
          (.createAlloc 7)).log ++ [ev] ∧
      σ'.mutex σ'.lock = none :=
  have h : Reachable 0 4 5 ({ (Sys.init 0 4 5).setPc 0 (.createLock 7) with
      mutex := Function.update (Sys.init 0 4 5).mutex 4 (some 0) }.setPc 0 (.createAlloc 7)) :=
    .step (.step .init (.create (t := 0) rfl)) (.run (t := 0) rfl)
  ⟨h, rfl, lock_holder_finishes h rfl⟩

def Pc.collecting : Pc → Bool
  | .visitLock .collect | .visitStart .collect | .visitLoop .collect _ _ | .stores _ .collected
  | .collectRelease => true
  | _ => false

def WriterHeld (σ : Sys) : Prop := ∀ t, σ.writer = some t ↔ (σ.threads t).pc.collecting = true

section
variable {σ σ' : Sys} {t t' : Nat} {pc : Pc}

theorem Sys.step_collecting (h : σ.step t pc = some σ') (hf : (σ'.threads t).pc ≠ .fault)
    (hw : pc ≠ .collectWrite) (hr : pc ≠ .collectRelease) :
    σ'.writer = σ.writer ∧ (σ'.threads t).pc.collecting = pc.collecting := by
  cases pc with
  | createLock _ | removeLock _ =>
    obtain ⟨-, rfl⟩ := Sys.acquire_eq_some h
    simp [Pc.collecting]
  | visitLock w =>
    obtain ⟨-, rfl⟩ := Sys.acquire_eq_some h
    cases w <;> simp [Pc.collecting]
  | stores ws ev =>
    cases ws with
    | nil => cases h; cases ev <;> simp [Sys.release, Event.after, Pc.collecting]
    | cons w ws => cases h; cases ev <;> simp [Pc.collecting]
  | visitStart w => cases h; cases w <;> simp [Pc.collecting]
  | visitLoop w ptr n =>
    cases ptr with
    | none => cases h; simp at hf
    | some p =>
      cases h
      refine ⟨rfl, ?_⟩
      rw [Sys.setPc_self]
      split <;> cases w <;> rfl
  | collectWrite => exact absurd rfl hw
  | collectRelease => exact absurd rfl hr
  | idle | createAlloc _ | fault => cases h
  | _ =>
    cases h
    refine ⟨rfl, ?_⟩
    rw [Sys.setPc_self]
    repeat' split
    all_goals rfl

theorem WriterHeld.step (hi : Inv σ) (hwh : WriterHeld σ) (hs : Step d t σ σ') :
    WriterHeld σ' := by
  have key : (σ'.writer = σ.writer ∧
        (σ'.threads t).pc.collecting = (σ.threads t).pc.collecting) ∨
      (σ.writer = none ∧ σ'.writer = some t ∧ (σ'.threads t).pc.collecting = true) ∨
      (σ.writer = some t ∧ σ'.writer = none ∧ (σ'.threads t).pc.collecting = false) := by
    cases hs with
    | create h | countTracked h | collectCycles h | remove h _ | drop h _ | alloc h _ =>
      exact .inl ⟨rfl, by simp [h, Pc.collecting]⟩
    | run h =>
      have hf := (hi.step (Step.run h : Step d t σ σ')).no_fault t
      generalize hpc : (σ.threads t).pc = pc at h
      by_cases hw : pc = .collectWrite
      · subst hw
        simp only [Sys.step] at h
        split at h <;> cases h
        exact .inr (.inl ⟨‹_›, rfl, by simp [Pc.collecting]⟩)
      by_cases hr : pc = .collectRelease
      · subst hr
        cases h
        exact .inr (.inr ⟨(hwh t).2 (by simp [hpc, Pc.collecting]), rfl, by simp [Pc.collecting]⟩)
      exact .inl (Sys.step_collecting h hf hw hr)
  intro t'
  by_cases htt : t' = t
  · subst htt
    rcases key with ⟨hw, hc⟩ | ⟨-, hw, hc⟩ | ⟨-, hw, hc⟩ <;> simp [hw, hc, hwh t']
  · rw [hs.threads_ne htt]
    rcases key with ⟨hw, -⟩ | ⟨hw₀, hw, -⟩ | ⟨hw₀, hw, -⟩
    · rw [hw]; exact hwh t'
    · rw [hw, ← hwh t', hw₀]; simp [Ne.symm htt]
    · rw [hw, ← hwh t', hw₀]; simp [Ne.symm htt]

theorem WriterHeld.reachable (h : Reachable s ℓ d σ) : WriterHeld σ := by
  induction h with
  | init => intro t; simp [Sys.init, Pc.collecting]
  | step hσ hs ih => exact ih.step (Inv.reachable hσ) hs

end

end GcModule
