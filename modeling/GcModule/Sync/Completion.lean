import GcModule.Sync.Progress

namespace GcModule
set_option autoImplicit true

def Runs (dummyVptr : Nat) : Sys → Sys → Prop :=
  Relation.ReflTransGen fun σ σ' => ∃ t, Step dummyVptr t σ σ'

/-- Steps of threads inside operations they have started: no thread starts a new one. -/
def Finishing (dummyVptr : Nat) : Sys → Sys → Prop :=
  Relation.ReflTransGen fun σ σ' => ∃ t, Busy dummyVptr t σ σ'

section
variable {σ σ' : Sys} {t t' : Nat} {pc : Pc} {ev : Event}

theorem Finishing.of_busy (hr : Relation.ReflTransGen (Busy d t) σ σ') : Finishing d σ σ' :=
  Relation.ReflTransGen.mono (fun _ _ hs => ⟨t, hs⟩) hr

theorem Runs.of_finishing (hr : Finishing d σ σ') : Runs d σ σ' :=
  Relation.ReflTransGen.mono (fun _ _ ⟨t, hs⟩ => ⟨t, hs.2⟩) hr

theorem Reachable.runs (h : Reachable s ℓ d σ) (hr : Runs d σ σ') : Reachable s ℓ d σ' := by
  induction hr with
  | refl => exact h
  | tail _ hs ih => obtain ⟨t, hs⟩ := hs; exact ih.step hs

theorem Reachable.busy (h : Reachable s ℓ d σ) (hr : Relation.ReflTransGen (Busy d t) σ σ') :
    Reachable s ℓ d σ' :=
  h.runs (Runs.of_finishing (Finishing.of_busy hr))

theorem busy_threads_ne (hr : Relation.ReflTransGen (Busy d t) σ σ') (ht : t' ≠ t) :
    σ'.threads t' = σ.threads t' := by
  induction hr with
  | refl => rfl
  | tail _ hs ih => rw [hs.2.threads_ne ht, ih]

theorem Finishing.idle_eq (hr : Finishing d σ σ') (h : (σ.threads t).pc = .idle) :
    σ'.threads t = σ.threads t := by
  induction hr with
  | refl => rfl
  | tail _ hs ih =>
    obtain ⟨t', hne, hs⟩ := hs
    have htt : t ≠ t' := by rintro rfl; exact hne (by rw [ih]; exact h)
    rw [hs.threads_ne htt, ih]

theorem Reachable.idle_above (h : Reachable s ℓ d σ) :
    ∃ N, ∀ t, N ≤ t → (σ.threads t).pc = .idle := by
  induction h with
  | init => exact ⟨0, fun _ _ => rfl⟩
  | @step σ₁ t σ₂ _ hs ih =>
    obtain ⟨N, hN⟩ := ih
    refine ⟨max N (t + 1), fun t' ht' => ?_⟩
    rw [hs.threads_ne (by omega)]
    exact hN t' ((le_max_left N (t + 1)).trans ht')

theorem Reachable.free_lock (h : Reachable s ℓ d σ) (hl : (σ.threads t).pc.locked = false) :
    ∃ σ', Finishing d σ σ' ∧ σ'.threads t = σ.threads t ∧ σ'.mutex σ'.lock = none := by
  cases hm : σ.mutex σ.lock with
  | none => exact ⟨σ, .refl, rfl, hm⟩
  | some t₁ =>
    have htt : t ≠ t₁ := by rintro rfl; simp [(Inv.reachable h |>.holder t).2 hm] at hl
    obtain ⟨σ', -, hr, -, hf, -⟩ := h.holder_releases hm
    exact ⟨σ', Finishing.of_busy hr, busy_threads_ne hr htt, hf⟩

theorem Sys.after_finishes (hf : σ.mutex σ.lock = none) (hpc : (σ.threads t).pc = ev.after) :
    ∃ σ', Relation.ReflTransGen (Busy d t) σ σ' ∧ (σ'.threads t).pc = .idle ∧
      σ'.mutex σ'.lock = none := by
  cases ev with
  | collected =>
    exact ⟨{ σ with writer := none }.setPc t .idle,
      .single ⟨by simp [hpc, Event.after], .run (by rw [hpc]; rfl)⟩, by simp, hf⟩
  | _ => exact ⟨σ, .refl, hpc, hf⟩

theorem Reachable.acquire_finishes (h : Reachable s ℓ d σ) (hf : σ.mutex σ.lock = none)
    (hpc : σ.step t (σ.threads t).pc = σ.acquire t σ.lock pc) :
    ∃ σ', Relation.ReflTransGen (Busy d t) σ σ' ∧ (σ'.threads t).pc = .idle ∧
      σ'.mutex σ'.lock = none := by
  have hstep := hpc.trans (Sys.acquire_of_free hf)
  have hne : (σ.threads t).pc ≠ .idle := fun h₀ => by rw [h₀] at hstep; cases hstep
  have hs : Step d t σ ({ σ with mutex := Function.update σ.mutex σ.lock (some t) }.setPc t pc) :=
    .run hstep
  obtain ⟨σ₂, ev, hr₂, -, hf₂, hpc₂⟩ := (h.step hs).holder_releases (t := t) (by simp [Sys.lock])
  obtain ⟨σ₃, hr₃, hidle, hf₃⟩ := Sys.after_finishes (d := d) hf₂ hpc₂
  exact ⟨σ₃, .head ⟨hne, hs⟩ (hr₂.trans hr₃), hidle, hf₃⟩

theorem Reachable.finishes_unlocked (h : Reachable s ℓ d σ) (hf : σ.mutex σ.lock = none)
    (hw : (σ.threads t).pc ≠ .collectWrite) :
    ∃ σ', Relation.ReflTransGen (Busy d t) σ σ' ∧ (σ'.threads t).pc = .idle ∧
      σ'.mutex σ'.lock = none := by
  have hi := Inv.reachable h
  have hnl : (σ.threads t).pc.locked = false :=
    Bool.eq_false_iff.2 fun hl => by rw [(hi.holder t).1 hl] at hf; cases hf
  generalize hpc : (σ.threads t).pc = pc at hw hnl
  cases pc with
  | idle => exact ⟨σ, .refl, hpc, hf⟩
  | fault => exact absurd hpc (hi.no_fault t)
  | createLock _ | visitLock _ => exact h.acquire_finishes hf (by rw [hpc]; rfl)
  | removeLock y =>
    have hl : (σ.mem y).linkedListLock = σ.lock :=
      hi.lock_live y (hi.owned_live t y (by simp [Sys.owned, hpc, Pc.removing]))
    exact h.acquire_finishes hf (by rw [hpc]; show σ.acquire t _ _ = _; rw [hl])
  | collectRelease =>
    have hpc : (σ.threads t).pc = Event.after .collected := hpc
    exact Sys.after_finishes hf hpc
  | collectWrite => exact absurd rfl hw
  | _ => simp [Pc.locked] at hnl

/-- Any thread finishes what it has started while no thread starts anything. -/
theorem Reachable.finish_thread (h : Reachable s ℓ d σ) (t : Nat) :
    ∃ σ', Finishing d σ σ' ∧ (σ'.threads t).pc = .idle := by
  obtain ⟨σ₀, hr₀, hf₀⟩ : ∃ σ₀, Finishing d σ σ₀ ∧ σ₀.mutex σ₀.lock = none := by
    cases hm : σ.mutex σ.lock with
    | none => exact ⟨σ, .refl, hm⟩
    | some t₁ =>
      obtain ⟨σ₀, -, hr, -, hf, -⟩ := h.holder_releases hm
      exact ⟨σ₀, Finishing.of_busy hr, hf⟩
  have h₀ := h.runs (Runs.of_finishing hr₀)
  have write : ∀ σ₁, Finishing d σ σ₁ → σ₁.mutex σ₁.lock = none → σ₁.writer = none →
      (σ₁.threads t).pc = .collectWrite → ∃ σ', Finishing d σ σ' ∧ (σ'.threads t).pc = .idle := by
    intro σ₁ hr₁ hf₁ hw₁ hpc₁
    have hs : Step d t σ₁ ({ σ₁ with writer := some t }.setPc t (.visitLock .collect)) :=
      .run (by rw [hpc₁]; simp only [Sys.step, hw₁, ↓reduceIte])
    obtain ⟨σ₂, hr₂, hidle, -⟩ :=
      ((h.runs (Runs.of_finishing hr₁)).step hs).finishes_unlocked (t := t) hf₁ (by simp)
    exact ⟨σ₂, hr₁.trans (.head ⟨t, by simp [hpc₁], hs⟩ (Finishing.of_busy hr₂)), hidle⟩
  by_cases hw : (σ₀.threads t).pc = .collectWrite
  · obtain hw₀ | ⟨t', hw₀⟩ : σ₀.writer = none ∨ ∃ t', σ₀.writer = some t' := by
      cases σ₀.writer <;> simp
    · exact write σ₀ hr₀ hf₀ hw₀ hw
    have hwh := WriterHeld.reachable h₀
    have hc := (hwh t').1 hw₀
    have htt : t' ≠ t := by rintro rfl; simp [hw, Pc.collecting] at hc
    obtain ⟨σ₁, hr₁, hidle, hf₁⟩ :=
      h₀.finishes_unlocked (t := t') hf₀ (by intro hpc; simp [hpc, Pc.collecting] at hc)
    have hw₁ : σ₁.writer = none := by
      cases hx : σ₁.writer with
      | none => rfl
      | some x =>
        have hcx := (WriterHeld.reachable (h₀.busy hr₁) x).1 hx
        by_cases hxt : x = t'
        · subst hxt; simp [hidle, Pc.collecting] at hcx
        · rw [busy_threads_ne hr₁ hxt, ← hwh x, hw₀] at hcx
          exact absurd (Option.some.inj hcx).symm hxt
    exact write σ₁ (hr₀.trans (Finishing.of_busy hr₁)) hf₁ hw₁
      (by rw [busy_threads_ne hr₁ htt.symm, hw])
  · obtain ⟨σ₁, hr₁, hidle, -⟩ := h₀.finishes_unlocked hf₀ hw
    exact ⟨σ₁, hr₀.trans (Finishing.of_busy hr₁), hidle⟩

end

/-- Nothing is stuck: some interleaving that starts nothing finishes every started operation. -/
theorem started_operations_all_finish (h : Reachable s ℓ d σ) :
    ∃ σ', Finishing d σ σ' ∧ ∀ t, (σ'.threads t).pc = .idle := by
  obtain ⟨N, hN⟩ := h.idle_above
  suffices ∀ k, ∃ σ', Finishing d σ σ' ∧ ∀ t, t < k ∨ N ≤ t → (σ'.threads t).pc = .idle from
    let ⟨σ', hr, hidle⟩ := this N
    ⟨σ', hr, fun t => hidle t (Nat.lt_or_ge t N)⟩
  intro k
  induction k with
  | zero => exact ⟨σ, .refl, fun t ht => hN t (ht.resolve_left (Nat.not_lt_zero t))⟩
  | succ k ih =>
    obtain ⟨σ₁, hr₁, hidle₁⟩ := ih
    obtain ⟨σ₂, hr₂, hk⟩ := (h.runs (Runs.of_finishing hr₁)).finish_thread k
    refine ⟨σ₂, hr₁.trans hr₂, fun t ht => ?_⟩
    by_cases htk : t = k
    · rw [htk]; exact hk
    · have ht' : t < k ∨ N ≤ t := by omega
      rw [hr₂.idle_eq (hidle₁ t ht')]
      exact hidle₁ t ht'

theorem started_operations_all_finish_mid_create :
    ∃ σ, Reachable 0 4 5 σ ∧ (σ.threads 0).pc ≠ .idle ∧ (σ.threads 1).pc ≠ .idle ∧
      ∃ σ', Finishing 5 σ σ' ∧ ∀ t, (σ'.threads t).pc = .idle := by
  obtain ⟨σ, h, h₁, h₀, -⟩ := reachable_mid_create
  exact ⟨σ, h, by simp [h₀], by simp [h₁], started_operations_all_finish h⟩

end GcModule
