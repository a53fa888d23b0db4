import GcModule.Sync.Header

namespace GcModule
set_option autoImplicit true

variable {m : Mem} {s x n p : Addr} {L : List Addr}

def Mem.null : Mem := fun _ => ⟨none, none, 0, 0⟩

/-- `ThreadedObjectSpace::default`: the sentinel at `list`, linked to itself both ways. -/
def default (m : Mem) (list : Addr) (lock dummyVptr : Nat) : Mem :=
  let m := m.write list ⟨none, none, dummyVptr, lock⟩
  (m.setPrev list (some list)).setNext list (some list)

/-- `empty_header`: null links, the dummy vtable, and a handle to the space's own list lock. -/
def emptyHeader (m : Mem) (list : Addr) (dummyVptr : Nat) : Header :=
  ⟨none, none, dummyVptr, (m list).linkedListLock⟩

def insertWrites (prev header next : Addr) (vptr : Nat) : List Write :=
  [.prev header (some prev), .next header (some next), .prev next (some header),
    .vptr header vptr, .next prev (some header)]

@[simp] theorem applyAll_insertWrites_next : (applyAll (insertWrites s x n v) m a).next =
    if a = s then some x else if a = x then some n else (m a).next := by
  by_cases h₁ : a = s <;> by_cases h₂ : a = x <;> simp [insertWrites, Write.apply, h₁, h₂]

@[simp] theorem applyAll_insertWrites_prev : (applyAll (insertWrites s x n v) m a).prev =
    if a = n then some x else if a = x then some s else (m a).prev := by
  by_cases h₁ : a = n <;> by_cases h₂ : a = x <;> simp [insertWrites, Write.apply, h₁, h₂]

/-- `ThreadedObjectSpace::insert`; `none` when its lock-handle or null-`next` assertion fails or a
link is null. Its `try_lock` and `is_collecting` assertions are not checked here. -/
def insert (m : Mem) (list header : Addr) (vptr : Nat) : Option Mem := do
  guard ((m header).linkedListLock = (m list).linkedListLock)
  guard ((m header).next = none)
  let next ← (m list).next
  pure (applyAll (insertWrites list header next vptr) m)

def removeWrites (header next prev : Addr) : List Write :=
  [.next prev (some next), .prev next (some prev), .next header none]

@[simp] theorem applyAll_removeWrites_next : (applyAll (removeWrites x n p) m a).next =
    if a = x then none else if a = p then some n else (m a).next := by
  by_cases h₁ : a = x <;> by_cases h₂ : a = p <;> simp [removeWrites, Write.apply, h₁, h₂]

@[simp] theorem applyAll_removeWrites_prev : (applyAll (removeWrites x n p) m a).prev =
    if a = n then some p else (m a).prev := by
  by_cases h₁ : a = n <;> simp [removeWrites, Write.apply, h₁]

/-- `ThreadedObjectSpace::remove` under its lock, without its `is_collecting` assertion. -/
def remove (m : Mem) (header : Addr) : Option Mem := do
  let next ← (m header).next
  let prev ← (m header).prev
  pure (applyAll (removeWrites header next prev) m)

def follow (field : Header → Option Addr) (m : Mem) (list : Addr) :
    Nat → Option Addr → Option (List Addr)
  | 0, _ => none
  | _ + 1, none => none
  | fuel + 1, some a => if a = list then some [] else (a :: ·) <$> follow field m list fuel (field (m a))

/-- `visit_list`, not among the sources, from the spec: a walk of `next` links from the sentinel. -/
def visitList (m : Mem) (list : Addr) (fuel : Nat) : Option (List Addr) :=
  follow Header.next m list fuel (m list).next

/-- `ThreadedObjectSpace::count_tracked`. -/
def countTracked (m : Mem) (list : Addr) (fuel : Nat) : Option Nat := (visitList m list fuel).map List.length

theorem follow_chain {R : Addr → Addr → Prop} {field : Header → Option Addr}
    (hR : ∀ a b, R a b → field (m a) = some b) :
    ∀ {l : List Addr} {fuel}, (l ++ [s]).Chain' R → s ∉ l → l.length < fuel →
      follow field m s fuel (l ++ [s]).head? = some l
  | [], fuel + 1, _, _, _ => by simp [follow]
  | a :: l, fuel + 1, hc, hs, hf => by
    obtain ⟨b, l', hl⟩ : ∃ b l', l ++ [s] = b :: l' := by cases l <;> simp
    rw [List.cons_append, hl, List.chain'_cons, ← hl] at hc
    have ha : a ≠ s := fun h => hs (h ▸ List.mem_cons_self a l)
    have ih := follow_chain hR hc.2 (fun h => hs (List.mem_cons_of_mem a h))
      (Nat.lt_of_succ_lt_succ hf)
    simp only [List.cons_append, List.head?_cons, follow, ha, if_false]
    rw [hR a b hc.1, ← List.head?_cons, ← hl, ih]
    rfl

theorem follow_cycle {R : Addr → Addr → Prop} {field : Header → Option Addr}
    (hR : ∀ a b, R a b → field (m a) = some b) {l : List Addr} (hc : (s :: l ++ [s]).Chain' R)
    (hs : s ∉ l) (hf : l.length < fuel) : follow field m s fuel (field (m s)) = some l := by
  obtain ⟨b, l', hl⟩ : ∃ b l', l ++ [s] = b :: l' := by cases l <;> simp
  rw [List.cons_append, hl, List.chain'_cons, ← hl] at hc
  rw [hR s b hc.1, ← List.head?_cons, ← hl]
  exact follow_chain hR hc.2 hs hf

theorem Represents.visitList (h : Represents m s L) (hf : L.length < fuel) :
    visitList m s fuel = some L :=
  follow_cycle (fun _ _ h => h.1) h.chain (List.nodup_cons.1 h.nodup).1 hf

theorem Represents.follow_prev (h : Represents m s L) (hf : L.length < fuel) :
    follow Header.prev m s fuel (m s).prev = some L.reverse := by
  have hc := (@List.chain'_reverse _ (flip (Linked m)) _).2 h.chain
  rw [List.cons_append, List.reverse_cons, List.reverse_append, List.reverse_singleton,
    List.singleton_append] at hc
  exact follow_cycle (fun _ _ h => h.2) hc
    (fun hm => (List.nodup_cons.1 h.nodup).1 (List.mem_reverse.1 hm)) (by simpa using hf)

theorem Represents.exists_head (h : Represents m s L) :
    ∃ b rest, L ++ [s] = b :: rest ∧ (m s).next = some b ∧ (b :: rest).Chain' (Linked m) := by
  obtain ⟨b, rest, hl⟩ : ∃ b rest, L ++ [s] = b :: rest := by cases L <;> simp
  have hc := h.chain
  rw [List.cons_append, hl, List.chain'_cons] at hc
  exact ⟨b, rest, hl, hc.1.1, hc.2⟩

theorem Represents.insertWrites (h : Represents m s L) (hx : x ∉ s :: L)
    (hn : (m s).next = some n) : Represents (applyAll (insertWrites s x n v) m) s (x :: L) := by
  obtain ⟨b, rest, hl, hb, hc⟩ := h.exists_head
  obtain rfl : n = b := Option.some.inj (hn.symm.trans hb)
  have hnd : (n :: rest).Nodup := hl ▸ (List.perm_append_singleton s L).nodup_iff.2 h.nodup
  have hs := List.nodup_cons.1 h.nodup
  simp only [List.mem_cons, not_or] at hx
  have hxr : x ∉ n :: rest := by rw [← hl]; simp [hx.1, hx.2]
  have hxn : x ≠ n := fun e => hxr (e ▸ List.mem_cons_self x rest)
  refine ⟨?_, ?_, fun a ha => ?_⟩
  · rw [List.cons_append, List.cons_append, hl]
    refine .cons ⟨by simp, by simp [hxn]⟩ (.cons ⟨by simp [hx.1], by simp⟩
      (chain_frame hc (fun a ha => ?_) (fun a ha => ?_)))
    · rw [← hl, List.dropLast_concat] at ha
      have has : a ≠ s := fun e => hs.1 (e ▸ ha)
      have hax : a ≠ x := fun e => hx.2 (e ▸ ha)
      simp [has, hax]
    · have han : a ≠ n := fun e => (List.nodup_cons.1 hnd).1 (e ▸ ha)
      have hax : a ≠ x := fun e => hxr (e ▸ List.mem_cons_of_mem n ha)
      simp [han, hax]
  · simp only [List.nodup_cons, List.mem_cons, not_or]
    exact ⟨⟨Ne.symm hx.1, hs.1⟩, hx.2, hs.2⟩
  · simp only [List.mem_cons, not_or] at ha
    simp [ha.1, ha.2.1, h.unlinked a (by simp [ha])]

theorem Represents.removeWrites (h : Represents m s L) (hx : x ∈ L)
    (hn : (m x).next = some n) (hp : (m x).prev = some p) :
    Represents (applyAll (removeWrites x n p) m) s (L.erase x) := by
  obtain ⟨L1, L2, rfl⟩ := List.append_of_mem hx
  obtain ⟨A, p', hA⟩ : ∃ A p', s :: L1 = A ++ [p'] :=
    ⟨_, _, (List.dropLast_concat_getLast (List.cons_ne_nil s L1)).symm⟩
  obtain ⟨n', B, hB⟩ : ∃ n' B, L2 ++ [s] = n' :: B := by cases L2 <;> simp
  have hc := h.chain
  rw [show s :: (L1 ++ x :: L2) ++ [s] = (s :: L1) ++ x :: (L2 ++ [s]) by simp, hA, hB,
    List.append_assoc, List.singleton_append, List.chain'_append_cons_cons, List.chain'_cons] at hc
  obtain ⟨hcA, ⟨-, hpx⟩, ⟨hxn, -⟩, hcB⟩ := hc
  obtain rfl : p = p' := Option.some.inj (hp.symm.trans hpx)
  obtain rfl : n = n' := Option.some.inj (hn.symm.trans hxn)
  have hnd := h.nodup
  rw [← List.cons_append, List.nodup_append] at hnd
  obtain ⟨hnd1, hnd2, hdis⟩ := hnd
  have hxL1 : x ∉ s :: L1 := fun hm => hdis hm (List.mem_cons_self x L2)
  have hpL : p ∈ s :: L1 := hA ▸ List.mem_concat_self A p
  have hpx : p ≠ x := fun e => hxL1 (e ▸ hpL)
  have hnL : n ∈ L2 ++ [s] := hB ▸ List.mem_cons_self n B
  have hsL2 : s ∉ L2 := fun hm => hdis (List.mem_cons_self s L1) (List.mem_cons_of_mem x hm)
  have hndB : (n :: B).Nodup := hB ▸ (List.perm_append_singleton s L2).nodup_iff.2
    (List.nodup_cons.2 ⟨hsL2, (List.nodup_cons.1 hnd2).2⟩)
  have herase : (L1 ++ x :: L2).erase x = L1 ++ L2 := by
    rw [List.erase_append_right _ (fun hm => hxL1 (List.mem_cons_of_mem s hm)), List.erase_cons_head]
  refine ⟨?_, ?_, fun a ha => ?_⟩
  · rw [herase, show s :: (L1 ++ L2) ++ [s] = (s :: L1) ++ (L2 ++ [s]) by simp, hA, hB,
      List.append_assoc, List.singleton_append, List.chain'_append_cons_cons]
    refine ⟨chain_frame hcA (fun a ha => ?_) (fun a ha => ?_), ⟨by simp [hpx], by simp⟩,
      chain_frame hcB (fun a ha => ?_) (fun a ha => ?_)⟩
    · rw [List.dropLast_concat] at ha
      have hap : a ≠ p := by
        rintro rfl; exact (List.nodup_append.1 (hA ▸ hnd1)).2.2 ha (List.mem_singleton_self a)
      have hax : a ≠ x := by rintro rfl; exact hxL1 (hA ▸ List.mem_append_left _ ha)
      simp [hap, hax]
    · rw [← hA, List.tail_cons] at ha
      have han : a ≠ n := by
        rintro rfl
        rcases List.mem_append.1 hnL with h2 | h2
        · exact hdis (List.mem_cons_of_mem s ha) (List.mem_cons_of_mem x h2)
        · exact (List.nodup_cons.1 hnd1).1 (List.mem_singleton.1 h2 ▸ ha)
      simp [han]
    · rw [← hB, List.dropLast_concat] at ha
      have hap : a ≠ p := fun e => hdis (e ▸ hpL) (List.mem_cons_of_mem x ha)
      have hax : a ≠ x := by rintro rfl; exact (List.nodup_cons.1 hnd2).1 ha
      simp [hap, hax]
    · have han : a ≠ n := by rintro rfl; exact (List.nodup_cons.1 hndB).1 ha
      simp [han]
  · have hs := List.nodup_cons.1 h.nodup
    exact List.nodup_cons.2 ⟨fun hm => hs.1 (List.mem_of_mem_erase hm), hs.2.erase x⟩
  · rw [herase] at ha
    by_cases hax : a = x
    · simp [hax]
    · have hap : a ≠ p := by
        rintro rfl
        simp only [List.mem_cons, List.mem_append] at hpL ha
        tauto
      simpa [hax, hap] using h.unlinked a (by simp_all)

theorem Represents.write_unlinked (y : Header) (h : Represents m s L) (hx : x ∉ s :: L)
    (hn : y.next = none) : Represents (m.write x y) s L := by
  refine ⟨chain_frame h.chain (fun a ha => ?_) (fun a ha => ?_), h.nodup, fun a ha => ?_⟩
  · rw [List.dropLast_concat] at ha
    have : a ≠ x := by rintro rfl; exact hx ha
    simp [this]
  · have : a ≠ x := by rintro rfl; simp_all
    simp [this]
  · by_cases hax : a = x
    · simp [hax, hn]
    · simp [hax, h.unlinked a ha]

theorem default_represents : Represents (default Mem.null s lock v) s [] := by
  refine ⟨?_, by simp, fun a ha => ?_⟩
  · simp [GcModule.default, Linked]
  · simp_all [GcModule.default, Mem.null]

inductive Op where
  | insert (header : Addr) (vptr : Nat)
  | remove (header : Addr)
  deriving DecidableEq, Repr

def Op.run (list : Addr) (dummyVptr : Nat) : Op → Mem → Option Mem
  | .insert h v, m => GcModule.insert (m.write h (emptyHeader m list dummyVptr)) list h v
  | .remove h, m => GcModule.remove m h

def Op.abs : Op → List Addr → List Addr
  | .insert h _, L => h :: L
  | .remove h, L => L.erase h

def Op.Valid (list : Addr) : Op → List Addr → Prop
  | .insert h _, L => h ∉ list :: L
  | .remove h, L => h ∈ L

def runOps (list : Addr) (dummyVptr : Nat) : List Op → Mem → Option Mem
  | [], m => some m
  | o :: os, m => (o.run list dummyVptr m).bind (runOps list dummyVptr os)

def absRun : List Op → List Addr → List Addr
  | [], L => L
  | o :: os, L => absRun os (o.abs L)

def ValidRun (list : Addr) : List Op → List Addr → Prop
  | [], _ => True
  | o :: os, L => o.Valid list L ∧ ValidRun list os (o.abs L)

theorem Represents.insert (h : Represents m s L) (hx : x ∉ s :: L) :
    ∃ m', GcModule.insert (m.write x (emptyHeader m s d)) s x v = some m' ∧
      Represents m' s (x :: L) := by
  have h1 := h.write_unlinked (emptyHeader m s d) hx rfl
  have hxs : s ≠ x := fun e => hx (e ▸ List.mem_cons_self s L)
  obtain ⟨y, hy, -⟩ := h1.exists_next (List.mem_cons_self s L)
  refine ⟨applyAll (GcModule.insertWrites s x y v) _, ?_, h1.insertWrites hx hy⟩
  simp only [GcModule.insert, Mem.write_apply, if_pos rfl, hxs, if_false]
  simp only [Mem.write_apply, hxs, if_false] at hy
  simp [emptyHeader, hy]

theorem Represents.remove (h : Represents m s L) (hx : x ∈ L) :
    ∃ m', GcModule.remove m x = some m' ∧ Represents m' s (L.erase x) := by
  obtain ⟨n, hn, -⟩ := h.exists_next (List.mem_cons_of_mem s hx)
  obtain ⟨p, -, hp⟩ := h.exists_prev (List.mem_cons_of_mem s hx)
  exact ⟨_, by simp [GcModule.remove, hn, hp], h.removeWrites hx hn hp⟩

theorem Represents.runOps (h : Represents m s L) (hv : ValidRun s ops L) :
    ∃ m', GcModule.runOps s d ops m = some m' ∧ Represents m' s (absRun ops L) := by
  induction ops generalizing m L with
  | nil => exact ⟨m, rfl, h⟩
  | cons o os ih =>
    obtain ⟨hv, hvs⟩ := hv
    obtain ⟨m1, h1, hr⟩ : ∃ m1, o.run s d m = some m1 ∧ Represents m1 s (o.abs L) := by
      cases o with
      | insert x v => exact h.insert hv
      | remove x => exact h.remove hv
    obtain ⟨m', h', hr'⟩ := ih hr hvs
    exact ⟨m', by simp [GcModule.runOps, h1, h'], hr'⟩

/-- What can be seen of a list holding `L`: both walks, each header's links, the unlinked rest. -/
structure Observed (m : Mem) (s : Addr) (L : List Addr) : Prop where
  walk_next : ∀ fuel, L.length < fuel →
    visitList m s fuel = some L ∧ countTracked m s fuel = some L.length
  walk_prev : ∀ fuel, L.length < fuel → follow Header.prev m s fuel (m s).prev = some L.reverse
  nodup : (s :: L).Nodup
  linked : ∀ x ∈ s :: L, (∃ y, Linked m x y) ∧ ∃ y, Linked m y x
  non_null : ∀ x ∈ s :: L, (m x).next ≠ none ∧ (m x).prev ≠ none
  unlinked : ∀ a, a ∉ s :: L → (m a).next = none

theorem Represents.observed (h : Represents m s L) : Observed m s L := by
  refine ⟨fun fuel hf => ?_, fun _ hf => h.follow_prev hf, h.nodup,
    fun x hx => ⟨h.exists_next hx, h.exists_prev hx⟩, fun x hx => ?_, h.unlinked⟩
  · simp [countTracked, h.visitList hf]
  · obtain ⟨y, hy⟩ := h.exists_next hx
    obtain ⟨z, hz⟩ := h.exists_prev hx
    simp [hy.1, hz.2]

/-- From `default`, valid inserts and removes pass every assertion and leave the abstract list. -/
theorem object_space_runs_represent_list (hv : ValidRun s ops []) :
    ∃ m, runOps s d ops (default Mem.null s lock d) = some m ∧ Observed m s (absRun ops []) := by
  obtain ⟨m, hm, hr⟩ := default_represents.runOps hv
  exact ⟨m, hm, hr.observed⟩

theorem object_space_runs_example :
    ValidRun 0 [.insert 1 7, .insert 2 8, .remove 1, .insert 3 9, .remove 3] [] ∧
      ∃ m, runOps 0 5 [.insert 1 7, .insert 2 8, .remove 1, .insert 3 9, .remove 3]
        (default Mem.null 0 4 5) = some m ∧
      Observed m 0 (absRun [.insert 1 7, .insert 2 8, .remove 1, .insert 3 9, .remove 3] []) :=
  have h : ValidRun 0 [.insert 1 7, .insert 2 8, .remove 1, .insert 3 9, .remove 3] [] := by
    simp [ValidRun, Op.Valid, Op.abs]
  ⟨h, object_space_runs_represent_list h⟩

/-- `remove` undoes `insert`, leaving every other header exactly as it was. -/
theorem insert_then_remove_restores (h : Represents m s L) (hx : x ∉ s :: L) :
    ∃ m', runOps s d [.insert x v, .remove x] m = some m' ∧ ∀ a, a ≠ x → m' a = m a := by
  obtain ⟨n, rest, hl, hn, -⟩ := h.exists_head
  have hsn : Linked m s n := by
    have hc := h.chain
    rw [List.cons_append, hl, List.chain'_cons] at hc
    exact hc.1
  simp only [List.mem_cons, not_or] at hx
  have hxn : x ≠ n := by
    rintro rfl
    have : x ∈ L ++ [s] := hl ▸ List.mem_cons_self x rest
    simp only [List.mem_append, List.mem_singleton] at this
    exact this.elim hx.2 hx.1
  refine ⟨applyAll (removeWrites x n s) (applyAll (insertWrites s x n v)
    (m.write x (emptyHeader m s d))), ?_, fun a ha => ?_⟩
  · simp [runOps, Op.run, GcModule.insert, GcModule.remove, emptyHeader, hx.1, Ne.symm hx.1,
      hn, hxn]
  · apply Header.eq_of_fields
    · by_cases has : a = s
      · subst has; simp [ha, hn]
      · simp [ha, has]
    · by_cases han : a = n
      · subst han; simp [ha, hsn.2]
      · simp [ha, han]
    · simp [GcModule.insertWrites, GcModule.removeWrites, Write.apply, ha]
    · simp [ha]

theorem insert_then_remove_restores_default :
    Represents (default Mem.null 0 4 5) 0 [] ∧ 1 ∉ [0] ∧
      ∃ m', runOps 0 5 [.insert 1 7, .remove 1] (default Mem.null 0 4 5) = some m' ∧
        ∀ a, a ≠ 1 → m' a = default Mem.null 0 4 5 a :=
  have h : Represents (default Mem.null 0 4 5) 0 [] := default_represents
  have hx : 1 ∉ [0] := by decide
  ⟨h, hx, insert_then_remove_restores h hx⟩

/-- The assertions of `remove` pass exactly on linked headers, so a double remove is caught. -/
theorem remove_passes_iff_linked (h : Represents m s L) :
    (GcModule.remove m x).isSome ↔ x ∈ s :: L := by
  constructor
  · intro hr
    by_contra hx
    simp [GcModule.remove, h.unlinked x hx] at hr
  · intro hx
    obtain ⟨n, hn, -⟩ := h.exists_next hx
    obtain ⟨p, -, hp⟩ := h.exists_prev hx
    simp [GcModule.remove, hn, hp]

theorem remove_passes_iff_linked_after_insert :
    ((GcModule.remove (default Mem.null 0 4 5) 1).isSome ↔ 1 ∈ [0]) ∧
      ∃ m, runOps 0 5 [.insert 1 7] (default Mem.null 0 4 5) = some m ∧ Represents m 0 [1] ∧
        ((GcModule.remove m 1).isSome ↔ 1 ∈ [0, 1]) := by
  have h₀ : Represents (default Mem.null 0 4 5) 0 [] := default_represents
  have hv : ValidRun 0 [.insert 1 7] [] := by simp [ValidRun, Op.Valid]
  obtain ⟨m, hm, hr⟩ := h₀.runOps (d := 5) hv
  exact ⟨remove_passes_iff_linked h₀, m, hm, hr, remove_passes_iff_linked hr⟩

/-- The assertions of `insert` pass exactly on unlinked headers that share the space's lock. -/
theorem insert_passes_iff_unlinked (h : Represents m s L) :
    (GcModule.insert m s x v).isSome ↔
      (m x).linkedListLock = (m s).linkedListLock ∧ x ∉ s :: L := by
  obtain ⟨n, -, -, hn, -⟩ := h.exists_head
  have hnext : (m x).next = none ↔ x ∉ s :: L := by
    refine ⟨fun hx hm => ?_, h.unlinked x⟩
    obtain ⟨y, hy, -⟩ := h.exists_next hm
    simp [hx] at hy
  rw [← hnext]
  by_cases hl : (m x).linkedListLock = (m s).linkedListLock <;>
    cases hx : (m x).next <;> simp [GcModule.insert, hl, hx, hn]

theorem insert_passes_iff_unlinked_fresh_header :
    ∃ m, m = (default Mem.null 0 4 5).write 1 (emptyHeader (default Mem.null 0 4 5) 0 5) ∧
      Represents m 0 [] ∧
      ((GcModule.insert m 0 1 7).isSome ↔
        (m 1).linkedListLock = (m 0).linkedListLock ∧ 1 ∉ [0]) ∧
      ((GcModule.insert m 0 0 7).isSome ↔
        (m 0).linkedListLock = (m 0).linkedListLock ∧ 0 ∉ [0]) :=
  have h : Represents ((default Mem.null 0 4 5).write 1 (emptyHeader (default Mem.null 0 4 5) 0 5))
      0 [] := default_represents.write_unlinked _ (by decide) rfl
  ⟨_, rfl, h, insert_passes_iff_unlinked h, insert_passes_iff_unlinked h⟩

end GcModule
