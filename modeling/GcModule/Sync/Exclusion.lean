import GcModule.Sync.Threads

namespace GcModule
set_option autoImplicit true

def Pc.removing : Pc → List Addr
  | .removeLock x | .removeCheckNext x | .removeCheckPrev x | .removeReadNext x
  | .removeReadPrev x _ | .stores _ (.removed x) => [x]
  | _ => []

def Sys.owned (σ : Sys) (t : Nat) : List Addr :=
  (σ.threads t).handles ++ (σ.threads t).pc.removing

def Completes (m : Mem) (s : Addr) (inUse : Addr → Bool) (L : List Addr) : Event → Prop
  | .created x => x ∉ s :: L ∧ (m x).linkedListLock = (m s).linkedListLock ∧ inUse x = true
  | .removed x => x ∈ L
  | .counted n => n = L.length
  | .collected => True

/-- What the holder of the list lock at `pc` has established about the list `L` it found. -/
def Inside (m : Mem) (s : Addr) (inUse : Addr → Bool) (L : List Addr) : Pc → Prop
  | .createAlloc _ | .visitStart _ => Represents m s L
  | .createCheck x _ | .createRead x _ =>
    Represents m s L ∧ x ∉ s :: L ∧ (m x).next = none ∧
      (m x).linkedListLock = (m s).linkedListLock ∧ inUse x = true
  | .removeCheckNext x | .removeCheckPrev x | .removeReadNext x => Represents m s L ∧ x ∈ L
  | .removeReadPrev x n => Represents m s L ∧ x ∈ L ∧ (m x).next = some n
  | .stores ws ev => Represents (applyAll ws m) s (ev.abs L) ∧ Completes m s inUse L ev
  | .visitLoop _ ptr n => Represents m s L ∧
    ∃ pre suf, L = pre ++ suf ∧ pre.length = n ∧ ptr = (suf ++ [s]).head?
  | _ => False

def Event.Valid : Event → List Addr → Prop
  | .created x, L => x ∉ L
  | .removed x, L => x ∈ L
  | .counted n, L => n = L.length
  | .collected, _ => True

/-- Each completed critical section was valid against the list its predecessors left. -/
inductive Serial : List Event → Prop
  | nil : Serial []
  | snoc {log : List Event} {ev : Event} :
      Serial log → ev.Valid (liveOf log) → Serial (log ++ [ev])

/-- The system invariant: the lock has one holder, handles are owned once, the list stays linked. -/
structure Inv (σ : Sys) : Prop where
  holder : ∀ t, (σ.threads t).pc.locked = true ↔ σ.mutex σ.lock = some t
  no_fault : ∀ t, (σ.threads t).pc ≠ .fault
  owned_live : ∀ t, ∀ x ∈ σ.owned t, x ∈ liveOf σ.log
  owned_nodup : ∀ t, (σ.owned t).Nodup
  owned_disjoint : ∀ t t', t ≠ t' → (σ.owned t).Disjoint (σ.owned t')
  live_nodup : (σ.list :: liveOf σ.log).Nodup
  lock_live : ∀ x ∈ liveOf σ.log, (σ.mem x).linkedListLock = σ.lock
  inUse_live : ∀ x ∈ σ.list :: liveOf σ.log, σ.inUse x = true
  serial : Serial σ.log
  free : σ.mutex σ.lock = none → Represents σ.mem σ.list (liveOf σ.log)
  held : ∀ t, σ.mutex σ.lock = some t →
    Inside σ.mem σ.list σ.inUse (liveOf σ.log) (σ.threads t).pc

theorem Inv.init : Inv (Sys.init s lock d) := by
  refine ⟨fun t => ?_, fun t => ?_, fun t => ?_, fun t => ?_, fun t t' _ => ?_, ?_, ?_, ?_, .nil,
    fun _ => default_represents, fun t h => ?_⟩ <;>
    simp_all [Sys.init, Sys.owned, Pc.locked, Pc.removing, liveOf]

theorem Serial.valid_at {ev : Event} (h : Serial log) (hi : log[i]? = some ev) :
    ev.Valid (liveOf (log.take i)) := by
  induction h with
  | nil => simp at hi
  | @snoc log ev' _ hev ih =>
    rcases Nat.lt_or_ge i log.length with hlt | hge
    · rw [List.getElem?_append_left hlt] at hi
      rw [List.take_append_of_le_length hlt.le]
      exact ih hi
    · rw [List.getElem?_append_right hge] at hi
      obtain rfl : i = log.length := by
        rcases h' : i - log.length with _ | k
        · omega
        · simp [h'] at hi
      simp only [Nat.sub_self, List.getElem?_cons_zero, Option.some.injEq] at hi
      rw [List.take_left, ← hi]
      exact hev

theorem Serial.count_live (h : Serial log) (x : Addr) :
    (liveOf log).count x + log.count (.removed x) = log.count (.created x) := by
  induction h with
  | nil => rfl
  | @snoc log ev _ hev ih =>
    simp only [liveOf_append, List.count_append, List.count_singleton']
    cases ev with
    | created y =>
      by_cases hy : x = y
      · subst hy; simp [Event.abs]; omega
      · simp [Event.abs, List.count_cons, Ne.symm hy, hy, ih]
    | removed y =>
      by_cases hy : x = y
      · subst hy
        have hpos : 0 < (liveOf log).count x := List.count_pos_iff.2 hev
        simp [Event.abs, List.count_erase_self]; omega
      · simp [Event.abs, List.count_erase_of_ne hy, Ne.symm hy, hy, ih]
    | counted _ | collected => simpa [Event.abs] using ih

theorem Event.mem_abs {ev : Event} {L : List Addr} (hx : x ∈ L) (hne : ev ≠ .removed x) :
    x ∈ ev.abs L := by
  cases ev with
  | created y => exact List.mem_cons_of_mem y hx
  | removed y => exact (List.mem_erase_of_ne fun h => hne (by rw [h])).2 hx
  | counted _ | collected => exact hx

theorem Represents.next_of_split (h : Represents m s L) (hL : L = pre ++ p :: suf) :
    (m p).next = (suf ++ [s]).head? := by
  obtain ⟨b, rest, hb⟩ : ∃ b rest, suf ++ [s] = b :: rest := by cases suf <;> simp
  have hc := h.chain
  rw [hL, show s :: (pre ++ p :: suf) ++ [s] = (s :: pre) ++ p :: (suf ++ [s]) by simp, hb,
    List.chain'_append_cons_cons] at hc
  rw [hb, hc.2.1.1, List.head?_cons]

theorem Event.mem_of_mem_abs {ev : Event} {L : List Addr} (hx : x ∈ ev.abs L) :
    x ∈ L ∨ ev = .created x := by
  cases ev with
  | created y => rcases List.mem_cons.1 hx with rfl | hx <;> simp [hx]
  | removed y => exact .inl (List.mem_of_mem_erase hx)
  | counted _ | collected => exact .inl hx

theorem Completes.valid (h : Completes m s u L ev) : ev.Valid L := by
  cases ev with
  | created x => exact fun hx => h.1 (List.mem_cons_of_mem s hx)
  | _ => exact h

theorem Represents.walk_at (h : Represents m s L) (hL : L = pre ++ suf)
    (hp : some p = (suf ++ [s]).head?) : (p = s ∧ suf = []) ∨ (p ≠ s ∧ ∃ suf', suf = p :: suf') := by
  cases suf with
  | nil => simp only [List.nil_append, List.head?_cons, Option.some.injEq] at hp; exact .inl ⟨hp, rfl⟩
  | cons b suf =>
    obtain rfl : p = b := by simpa using hp
    refine .inr ⟨fun hs => (List.nodup_cons.1 h.nodup).1 ?_, suf, rfl⟩
    exact hs ▸ hL ▸ List.mem_append_right pre (List.mem_cons_self p suf)

theorem Completes.apply (h : Completes m s u L ev) (w : Write) :
    Completes (w.apply m) s u L ev := by
  cases ev <;> simp_all [Completes]

theorem Pc.ne_fault_of_locked {pc : Pc} (hl : pc.locked = true) : pc ≠ .fault := by
  rintro rfl; cases hl

section
variable {σ σ' : Sys} {t t' : Nat} {th : Thread} {pc : Pc}

@[simp] theorem Sys.setThread_lock : (σ.setThread t th).lock = σ.lock := rfl

theorem Sys.setThread_owned :
    (σ.setThread t th).owned t' =
      if t' = t then th.handles ++ th.pc.removing else σ.owned t' := by
  by_cases h : t' = t <;> simp [Sys.owned, h]

theorem Sys.setPc_pc :
    ((σ.setPc t pc).threads t').pc = if t' = t then pc else (σ.threads t').pc := by
  by_cases h : t' = t <;> simp [h]

theorem Sys.setPc_owned (hr : pc.removing = (σ.threads t).pc.removing) :
    (σ.setPc t pc).owned t' = σ.owned t' := by
  by_cases h : t' = t <;> simp [Sys.owned, h, hr]

theorem Inv.setThread (hi : Inv σ) (hl : th.pc.locked = false)
    (hl' : (σ.threads t).pc.locked = false)
    (ho : List.Subperm (th.handles ++ th.pc.removing) (σ.owned t))
    (hf : th.pc ≠ .fault) : Inv (σ.setThread t th) := by
  have howned : ∀ t', ∀ x, x ∈ (σ.setThread t th).owned t' → x ∈ σ.owned t' := by
    intro t' x
    rw [Sys.setThread_owned]
    split
    · subst t'; exact fun hx => ho.subset hx
    · exact id
  refine ⟨fun t' => ?_, fun t' => ?_, fun t' x hx => ?_, fun t' => ?_, fun t₁ t₂ h => ?_,
    hi.live_nodup, hi.lock_live, hi.inUse_live, hi.serial, hi.free, fun t' h => ?_⟩
  · by_cases h : t' = t <;> simp [h, ← hi.holder, hl, hl']
  · by_cases h : t' = t <;> simp_all [hi.no_fault]
  · exact hi.owned_live t' x (howned t' x hx)
  · rw [Sys.setThread_owned]
    split
    · obtain ⟨l, hp, hs⟩ := ho
      exact hp.nodup_iff.1 ((hi.owned_nodup t).sublist hs)
    · exact hi.owned_nodup t'
  · intro x h₁ h₂
    exact hi.owned_disjoint t₁ t₂ h (howned t₁ x h₁) (howned t₂ x h₂)
  · have ht : t' ≠ t := by
      rintro rfl; have := (hi.holder t').2 h; simp_all
    simp only [Sys.setThread_mutex, Sys.setThread_lock, Sys.setThread_threads, ht,
      if_false] at h ⊢
    exact hi.held t' h

theorem Inv.setPc (hi : Inv σ) (hl : pc.locked = false) (hl' : (σ.threads t).pc.locked = false)
    (hr : pc.removing = (σ.threads t).pc.removing) (hf : pc ≠ .fault) : Inv (σ.setPc t pc) :=
  hi.setThread hl hl' (by simp [Sys.owned, hr]; rfl) hf

theorem Inv.holder_step (hi : Inv σ) (ht : σ.mutex σ.lock = some t)
    (hm : ∀ a ∈ σ.list :: liveOf σ.log, (m a).linkedListLock = (σ.mem a).linkedListLock)
    (hu : ∀ a, σ.inUse a = true → u a = true) (hl : pc.locked = true)
    (hr : pc.removing = (σ.threads t).pc.removing) (hin : Inside m σ.list u (liveOf σ.log) pc) :
    Inv ({ σ with mem := m, inUse := u }.setPc t pc) := by
  have hlock : ({ σ with mem := m, inUse := u }.setPc t pc).lock = σ.lock :=
    hm σ.list (List.mem_cons_self _ _)
  have hown : ∀ t', ({ σ with mem := m, inUse := u }.setPc t pc).owned t' = σ.owned t' :=
    fun _ => Sys.setPc_owned hr
  refine ⟨fun t' => ?_, fun t' => ?_, fun t' => hown t' ▸ hi.owned_live t',
    fun t' => hown t' ▸ hi.owned_nodup t',
    fun t₁ t₂ => hown t₁ ▸ hown t₂ ▸ hi.owned_disjoint t₁ t₂,
    hi.live_nodup, fun x hx => ?_, fun x hx => hu x (hi.inUse_live x hx), hi.serial,
    fun h => ?_, fun t' h => ?_⟩ <;> rw [hlock] at * <;> try rw [Sys.setPc_pc]
  · by_cases h : t' = t <;> simp [h, hl, ht, hi.holder]
  · by_cases h : t' = t <;> simp [h, hi.no_fault, Pc.ne_fault_of_locked hl]
  · exact (hm x (List.mem_cons_of_mem _ hx)).trans (hi.lock_live x hx)
  · exact absurd (ht.symm.trans h) (by simp)
  · obtain rfl : t' = t := Option.some.inj (h.symm.trans ht)
    simpa using hin

theorem Inv.acquire (hi : Inv σ) (hm : σ.mutex σ.lock = none) (hl : pc.locked = true)
    (hr : pc.removing = (σ.threads t).pc.removing)
    (hin : Represents σ.mem σ.list (liveOf σ.log) →
      Inside σ.mem σ.list σ.inUse (liveOf σ.log) pc) :
    Inv ({ σ with mutex := Function.update σ.mutex σ.lock (some t) }.setPc t pc) := by
  have hown : ∀ t',
      ({ σ with mutex := Function.update σ.mutex σ.lock (some t) }.setPc t pc).owned t' =
        σ.owned t' := fun _ => Sys.setPc_owned hr
  have hlock : ({ σ with mutex := Function.update σ.mutex σ.lock (some t) }.setPc t pc).lock =
      σ.lock := rfl
  refine ⟨fun t' => ?_, fun t' => ?_, fun t' => hown t' ▸ hi.owned_live t',
    fun t' => hown t' ▸ hi.owned_nodup t',
    fun t₁ t₂ => hown t₁ ▸ hown t₂ ▸ hi.owned_disjoint t₁ t₂,
    hi.live_nodup, hi.lock_live, hi.inUse_live, hi.serial, fun h => ?_, fun t' h => ?_⟩ <;>
    rw [hlock] at * <;> try rw [Sys.setPc_pc]
  · by_cases h : t' = t
    · simp [h, hl]
    · simp [h, Ne.symm h, hi.holder, hm]
  · by_cases h : t' = t <;> simp [h, hi.no_fault, Pc.ne_fault_of_locked hl]
  · simp at h
  · obtain rfl : t' = t := by simpa [eq_comm] using h
    simpa using hin (hi.free hm)

theorem Sys.release_inUse :
    (σ.release t ev).inUse x = if ev = .removed x then false else σ.inUse x := by
  cases ev <;> simp [Sys.release, Function.update_apply, eq_comm]

theorem Sys.release_pc :
    ((σ.release t ev).threads t').pc = if t' = t then ev.after else (σ.threads t').pc := by
  by_cases h : t' = t <;> simp [Sys.release, h]

theorem Sys.release_owned (hpc : (σ.threads t).pc = .stores [] ev)
    (hx : x ∈ (σ.release t ev).owned t') :
    x ∈ σ.owned t' ∨ (t' = t ∧ ev = .created x) := by
  by_cases h : t' = t
  · subst h
    cases ev <;> simp_all [Sys.release, Sys.owned, Event.after, Pc.removing]
    tauto
  · simp_all [Sys.release, Sys.owned]

theorem Inv.release (hi : Inv σ) (hpc : (σ.threads t).pc = .stores [] ev) :
    Inv (σ.release t ev) := by
  have ht : σ.mutex σ.lock = some t := (hi.holder t).1 (by simp [hpc, Pc.locked])
  have hin := hi.held t ht
  rw [hpc] at hin
  obtain ⟨hrep, hc⟩ := hin
  rw [applyAll_nil] at hrep
  have hguard : (σ.mem (ev.guard σ.list)).linkedListLock = σ.lock := by
    cases ev with
    | removed x => exact hi.lock_live x hc
    | _ => rfl
  have hlock : (σ.release t ev).lock = σ.lock := rfl
  have hmutex : (σ.release t ev).mutex σ.lock = none := by simp [Sys.release, hguard]
  have hlog : liveOf (σ.release t ev).log = ev.abs (liveOf σ.log) := by simp [Sys.release]
  have hnew : ∀ x, ev = .created x → ∀ t', x ∉ σ.owned t' := by
    rintro x rfl t' hx
    exact hc.1 (List.mem_cons_of_mem _ (hi.owned_live t' x hx))
  have hkeep : ∀ t' x, x ∈ (σ.release t ev).owned t' → ev ≠ .removed x := by
    rintro t' x hx rfl
    have hxt : x ∈ σ.owned t := by simp [Sys.owned, hpc, Pc.removing]
    rcases Sys.release_owned hpc hx with hx' | ⟨-, h⟩
    · by_cases h : t' = t
      · subst h
        have hnd := hi.owned_nodup t'
        simp only [Sys.owned, hpc, Pc.removing] at hnd
        simp [Sys.release, Sys.owned, Event.after, Pc.removing] at hx
        exact (List.nodup_append.1 hnd).2.2 hx (List.mem_singleton_self x)
      · exact hi.owned_disjoint t t' (Ne.symm h) hxt hx'
    · cases h
  refine ⟨fun t' => ?_, fun t' => ?_, fun t' x hx => ?_, fun t' => ?_,
    fun t₁ t₂ h x h₁ h₂ => ?_, hlog ▸ hrep.nodup, fun x hx => ?_, fun x hx => ?_, ?_,
    fun _ => hlog ▸ hrep, fun t' h => ?_⟩ <;> rw [hlock] at *
  · rw [Sys.release_pc, hmutex]
    by_cases h : t' = t
    · cases ev <;> simp [h, Event.after, Pc.locked]
    · simp [h, Ne.symm h, hi.holder, ht]
  · rw [Sys.release_pc]
    split
    · cases ev <;> simp [Event.after]
    · exact hi.no_fault t'
  · rw [hlog]
    rcases Sys.release_owned hpc hx with hx' | ⟨-, rfl⟩
    · exact Event.mem_abs (hi.owned_live t' x hx') (hkeep t' x hx)
    · exact List.mem_cons_self x _
  · by_cases h : t' = t
    · subst h
      have hnd := hi.owned_nodup t'
      cases ev <;> simp_all [Sys.release, Sys.owned, Event.after, Pc.removing, List.nodup_append]
    · simpa [Sys.release, Sys.owned, h] using hi.owned_nodup t'
  · rcases Sys.release_owned hpc h₁ with o₁ | ⟨rfl, rfl⟩ <;>
      rcases Sys.release_owned hpc h₂ with o₂ | ⟨rfl, e₂⟩
    · exact hi.owned_disjoint t₁ t₂ h o₁ o₂
    · exact hnew x e₂ t₁ o₁
    · exact hnew x rfl t₂ o₂
    · exact h rfl
  · rcases Event.mem_of_mem_abs (hlog ▸ hx) with hx | rfl
    · exact hi.lock_live x hx
    · exact hc.2.1
  · have hx : x ∈ σ.list :: ev.abs (liveOf σ.log) := hlog ▸ hx
    have hnd := List.nodup_cons.1 hi.live_nodup
    have hne : ev ≠ .removed x := by
      rintro rfl
      rcases List.mem_cons.1 hx with rfl | hx
      · exact hnd.1 hc
      · exact hnd.2.not_mem_erase hx
    rw [Sys.release_inUse, if_neg hne]
    rcases List.mem_cons.1 hx with rfl | hx
    · exact hi.inUse_live _ (List.mem_cons_self _ _)
    rcases Event.mem_of_mem_abs hx with hx | rfl
    · exact hi.inUse_live x (List.mem_cons_of_mem _ hx)
    · exact hc.2.2
  · exact hi.serial.snoc hc.valid
  · simp [hmutex] at h

theorem Inv.writer (hi : Inv σ) (w : Option Nat) : Inv { σ with writer := w } :=
  ⟨hi.holder, hi.no_fault, hi.owned_live, hi.owned_nodup, hi.owned_disjoint, hi.live_nodup,
    hi.lock_live, hi.inUse_live, hi.serial, hi.free, hi.held⟩

theorem Inv.holder_move (hi : Inv σ) (hpc : (σ.threads t).pc = pc₀) (hl₀ : pc₀.locked = true)
    (hl : pc.locked = true) (hr : pc.removing = pc₀.removing)
    (hin : Inside σ.mem σ.list σ.inUse (liveOf σ.log) pc) : Inv (σ.setPc t pc) :=
  hi.holder_step ((hi.holder t).1 (hpc ▸ hl₀)) (fun _ _ => rfl) (fun _ h => h) hl (hpc ▸ hr) hin

theorem Sys.acquire_eq_some (h : σ.acquire t ℓ pc = some σ') :
    σ.mutex ℓ = none ∧
      σ' = { σ with mutex := Function.update σ.mutex ℓ (some t) }.setPc t pc := by
  unfold Sys.acquire at h
  split at h
  · exact ⟨‹_›, (Option.some.inj h).symm⟩
  · cases h

theorem Inv.locked (hi : Inv σ) (hpc : (σ.threads t).pc = pc) (hl : pc.locked = true) :
    σ.mutex σ.lock = some t ∧ Inside σ.mem σ.list σ.inUse (liveOf σ.log) pc := by
  have ht := (hi.holder t).1 (hpc ▸ hl)
  exact ⟨ht, hpc ▸ hi.held t ht⟩

theorem Inv.run (hi : Inv σ) (h : σ.step t (σ.threads t).pc = some σ') : Inv σ' := by
  generalize hpc : (σ.threads t).pc = pc at h
  cases pc with
  | idle | createAlloc _ | fault => simp [Sys.step] at h
  | createLock _ | visitLock _ =>
    obtain ⟨hm, rfl⟩ := Sys.acquire_eq_some h
    exact hi.acquire hm rfl (by simp [hpc, Pc.removing]) id
  | removeLock x =>
    obtain ⟨hm, rfl⟩ := Sys.acquire_eq_some h
    have hx : x ∈ liveOf σ.log := hi.owned_live t x (by simp [Sys.owned, hpc, Pc.removing])
    have hl : (σ.mem x).linkedListLock = σ.lock := hi.lock_live x hx
    rw [hl] at hm ⊢
    exact hi.acquire hm rfl (by simp [hpc, Pc.removing]) (fun hr => ⟨hr, hx⟩)
  | collectWrite =>
    simp only [Sys.step] at h
    split at h <;> cases h
    exact (hi.writer _).setPc rfl (by simp [hpc, Pc.locked]) (by simp [hpc, Pc.removing]) (by simp)
  | collectRelease =>
    cases h
    exact (hi.writer _).setPc rfl (by simp [hpc, Pc.locked]) (by simp [hpc, Pc.removing]) (by simp)
  | createCheck x v =>
    obtain ⟨ht, hrep, hxL, hnext, hlock, hu⟩ := hi.locked hpc rfl
    have ht' : σ.mutex (σ.mem σ.list).linkedListLock = some t := ht
    have hc : insertChecks σ x = true := by simp [insertChecks, hnext, hlock, ht']
    cases h
    rw [hc, if_pos rfl]
    exact hi.holder_move hpc rfl rfl rfl ⟨hrep, hxL, hnext, hlock, hu⟩
  | createRead x v =>
    obtain ⟨-, hrep, hxL, -, hlock, hu⟩ := hi.locked hpc rfl
    obtain ⟨n, -, -, hn, -⟩ := hrep.exists_head
    cases h
    simp only [hn]
    exact hi.holder_move hpc rfl rfl rfl ⟨hrep.insertWrites hxL hn, hxL, hlock, hu⟩
  | removeCheckNext x =>
    obtain ⟨-, hrep, hx⟩ := hi.locked hpc rfl
    obtain ⟨y, hy, -⟩ := hrep.exists_next (List.mem_cons_of_mem _ hx)
    cases h
    simp only [hy, Option.isNone_some, Bool.false_eq_true, ↓reduceIte]
    exact hi.holder_move hpc rfl rfl rfl ⟨hrep, hx⟩
  | removeCheckPrev x =>
    obtain ⟨-, hrep, hx⟩ := hi.locked hpc rfl
    obtain ⟨y, -, hy⟩ := hrep.exists_prev (List.mem_cons_of_mem _ hx)
    cases h
    simp only [hy, Option.isNone_some, Bool.false_eq_true, ↓reduceIte]
    exact hi.holder_move hpc rfl rfl rfl ⟨hrep, hx⟩
  | removeReadNext x =>
    obtain ⟨-, hrep, hx⟩ := hi.locked hpc rfl
    obtain ⟨n, hn, -⟩ := hrep.exists_next (List.mem_cons_of_mem _ hx)
    cases h
    simp only [hn]
    exact hi.holder_move hpc rfl rfl rfl ⟨hrep, hx, hn⟩
  | removeReadPrev x n =>
    obtain ⟨-, hrep, hx, hn⟩ := hi.locked hpc rfl
    obtain ⟨p, -, hp⟩ := hrep.exists_prev (List.mem_cons_of_mem _ hx)
    cases h
    simp only [hp]
    exact hi.holder_move hpc rfl rfl rfl ⟨hrep.removeWrites hx hn hp, hx⟩
  | stores ws ev =>
    cases ws with
    | nil => cases h; exact hi.release hpc
    | cons w ws =>
      obtain ⟨ht, hrep, hc⟩ := hi.locked hpc rfl
      cases h
      exact hi.holder_step ht (fun a _ => Write.apply_lock w) (fun _ h => h) rfl
        (by rw [hpc]; cases ev <;> rfl) ⟨hrep, hc.apply w⟩
  | visitStart w =>
    obtain ⟨-, hrep⟩ := hi.locked hpc rfl
    obtain ⟨b, rest, hb, hn, -⟩ := hrep.exists_head
    cases h
    exact hi.holder_move hpc rfl rfl rfl ⟨hrep, [], liveOf σ.log, rfl, rfl, by rw [hn, hb]; rfl⟩
  | visitLoop w ptr n =>
    obtain ⟨-, hrep, pre, suf, hL, hn, hptr⟩ := hi.locked hpc rfl
    cases ptr with
    | none => cases suf <;> simp at hptr
    | some p =>
      cases h
      rcases hrep.walk_at hL hptr with ⟨rfl, rfl⟩ | ⟨hp, suf, rfl⟩
      · rw [if_pos rfl]
        refine hi.holder_move hpc rfl rfl (by cases w <;> rfl) ⟨?_, ?_⟩ <;>
          cases w <;> simp_all [Walker.event, Event.abs, Completes]
      · rw [if_neg hp]
        exact hi.holder_move hpc rfl rfl rfl
          ⟨hrep, pre ++ [p], suf, by simp [hL], by simp [hn], hrep.next_of_split hL⟩

theorem Inv.step (hi : Inv σ) (hs : Step d t σ σ') : Inv σ' := by
  cases hs with
  | create h | countTracked h | collectCycles h =>
    exact hi.setPc rfl (by simp [h, Pc.locked]) (by simp [h, Pc.removing]) (by simp)
  | remove h hx =>
    refine hi.setThread rfl (by simp [h, Pc.locked]) ?_ (by simp)
    simpa [Sys.owned, h, Pc.removing] using
      ((List.perm_append_singleton _ _).trans (List.perm_cons_erase hx).symm).subperm
  | drop h hx =>
    refine hi.setThread rfl (by simp [h, Pc.locked]) ?_ (by simp)
    simpa [Sys.owned, h, Pc.removing] using (List.erase_sublist _ _).subperm
  | @alloc _ v x h hx =>
    obtain ⟨ht, hrep⟩ := hi.locked h rfl
    have hxL : x ∉ σ.list :: liveOf σ.log := fun hm => by simp [hi.inUse_live x hm] at hx
    have hne : ∀ a ∈ σ.list :: liveOf σ.log, a ≠ x := fun a ha h => hxL (h ▸ ha)
    exact hi.holder_step ht (fun a ha => by simp [hne a ha])
      (fun a ha => by rw [Function.update_apply]; split <;> simp [ha])
      rfl (by simp [h, Pc.removing]) ⟨hrep.write_unlinked _ hxL rfl, hxL, by simp [emptyHeader],
        by simp [emptyHeader, hne σ.list (List.mem_cons_self _ _)], by simp⟩
  | run h => exact hi.run h

theorem Step.mem_eq (hs : Step d t σ σ') (hl : (σ.threads t).pc.locked = false) :
    σ'.mem = σ.mem := by
  cases hs with
  | alloc h => simp [h, Pc.locked] at hl
  | run h =>
    generalize hpc : (σ.threads t).pc = pc at h hl
    cases pc with
    | createLock _ | removeLock _ | visitLock _ => obtain ⟨-, rfl⟩ := Sys.acquire_eq_some h; rfl
    | collectWrite => simp only [Sys.step] at h; split at h <;> cases h; rfl
    | collectRelease => cases h; rfl
    | idle | fault => cases h
    | _ => simp [Pc.locked] at hl
  | _ => rfl

theorem Sys.setPc_setPc : (σ.setPc t pc).setPc t pc' = σ.setPc t pc' := by
  simp [Sys.setThread, Function.update_idem]

theorem visitLoop_completes (hrep : Represents σ.mem σ.list L)
    (hpc : (σ.threads t).pc = .visitLoop w ptr n) (hL : L = pre ++ suf) (hn : pre.length = n)
    (hptr : ptr = (suf ++ [σ.list]).head?) :
    Relation.ReflTransGen (Step d t) σ (σ.setPc t (.stores [] (w.event L.length))) := by
  induction suf generalizing σ pre n ptr with
  | nil =>
    subst hptr hL hn
    exact .single (.run (by simp [hpc, Sys.step]))
  | cons p suf ih =>
    have hp : p ≠ σ.list :=
      ((hrep.walk_at hL (show some p = (p :: suf ++ [σ.list]).head? from rfl)).resolve_left
        fun h => nomatch h.2).1
    have hstep : Step d t σ (σ.setPc t (.visitLoop w (σ.mem p).next (n + 1))) := by
      subst hptr; exact .run (by simp [hpc, Sys.step, hp])
    have hrest := @ih (σ.setPc t (.visitLoop w (σ.mem p).next (n + 1))) _ (n + 1) (pre ++ [p])
      hrep (by simp) (by simp [hL]) (by simp [hn]) (hrep.next_of_split hL)
    simpa only [Sys.setPc_setPc] using Relation.ReflTransGen.head hstep hrest

/-- Inside the list lock, a walk finishes by the thread's own steps, recording the list's length. -/
theorem Inv.walk_completes (hi : Inv σ) (hpc : (σ.threads t).pc = .visitStart w) :
    ∃ σ', Relation.ReflTransGen (Step d t) σ σ' ∧
      σ'.log = σ.log ++ [w.event (liveOf σ.log).length] ∧
      (σ'.threads t).pc = (w.event (liveOf σ.log).length).after := by
  obtain ⟨-, hrep⟩ := hi.locked hpc rfl
  obtain ⟨b, rest, hb, hn, -⟩ := hrep.exists_head
  let σ₁ := σ.setPc t (.visitLoop w (σ.mem σ.list).next 0)
  let σ₂ := σ₁.setPc t (.stores [] (w.event (liveOf σ.log).length))
  have h₁ : Step d t σ σ₁ := .run (by simp [σ₁, hpc, Sys.step])
  have h₂ : Relation.ReflTransGen (Step d t) σ₁ σ₂ :=
    visitLoop_completes hrep
      (show (σ₁.threads t).pc = .visitLoop w (σ.mem σ.list).next 0 by simp [σ₁])
      (List.nil_append _).symm rfl (show _ = (liveOf σ.log ++ [σ.list]).head? by rw [hn, hb]; rfl)
  have h₃ : Step d t σ₂ (σ₂.release t (w.event (liveOf σ.log).length)) :=
    .run (by simp [σ₂, Sys.step])
  exact ⟨_, (h₂.head h₁).tail h₃, by simp [σ₁, σ₂, Sys.release], by simp [Sys.release]⟩

theorem Inv.reachable (h : Reachable s ℓ d σ) : Inv σ := by
  induction h with
  | init => exact Inv.init
  | step _ hs ih => exact ih.step hs

end

end GcModule