import Mathlib.Data.List.Chain
import Mathlib.Data.List.Nodup

namespace GcModule
set_option autoImplicit true

abbrev Addr := Nat

/-- `sync::collect::Header`: the list links, the object's vtable and its list lock handle. -/
structure Header where
  next : Option Addr
  prev : Option Addr
  ccdynVptr : Nat
  linkedListLock : Nat
  deriving DecidableEq, Repr

abbrev Mem := Addr → Header

variable {m m' : Mem} {a b : Addr} {p : Option Addr} {v : Nat}

def Mem.write (m : Mem) (a : Addr) (x : Header) : Mem := fun b => if b = a then x else m b

def Mem.setNext (m : Mem) (a : Addr) (p : Option Addr) : Mem :=
  fun b => if b = a then { m a with next := p } else m b

def Mem.setPrev (m : Mem) (a : Addr) (p : Option Addr) : Mem :=
  fun b => if b = a then { m a with prev := p } else m b

def Mem.setVptr (m : Mem) (a : Addr) (v : Nat) : Mem :=
  fun b => if b = a then { m a with ccdynVptr := v } else m b

@[simp] theorem Mem.write_apply {x : Header} : m.write a x b = if b = a then x else m b := rfl

@[simp] theorem Mem.setNext_next : (m.setNext a p b).next = if b = a then p else (m b).next := by
  unfold Mem.setNext; split <;> simp_all

@[simp] theorem Mem.setNext_prev : (m.setNext a p b).prev = (m b).prev := by
  unfold Mem.setNext; split <;> simp_all

@[simp] theorem Mem.setNext_lock : (m.setNext a p b).linkedListLock = (m b).linkedListLock := by
  unfold Mem.setNext; split <;> simp_all

@[simp] theorem Mem.setPrev_next : (m.setPrev a p b).next = (m b).next := by
  unfold Mem.setPrev; split <;> simp_all

@[simp] theorem Mem.setPrev_prev : (m.setPrev a p b).prev = if b = a then p else (m b).prev := by
  unfold Mem.setPrev; split <;> simp_all

@[simp] theorem Mem.setPrev_lock : (m.setPrev a p b).linkedListLock = (m b).linkedListLock := by
  unfold Mem.setPrev; split <;> simp_all

@[simp] theorem Mem.setVptr_next : (m.setVptr a v b).next = (m b).next := by
  unfold Mem.setVptr; split <;> simp_all

@[simp] theorem Mem.setVptr_prev : (m.setVptr a v b).prev = (m b).prev := by
  unfold Mem.setVptr; split <;> simp_all

@[simp] theorem Mem.setVptr_lock : (m.setVptr a v b).linkedListLock = (m b).linkedListLock := by
  unfold Mem.setVptr; split <;> simp_all

@[simp] theorem Mem.setNext_vptr : (m.setNext a p b).ccdynVptr = (m b).ccdynVptr := by
  unfold Mem.setNext; split <;> simp_all

@[simp] theorem Mem.setPrev_vptr : (m.setPrev a p b).ccdynVptr = (m b).ccdynVptr := by
  unfold Mem.setPrev; split <;> simp_all

@[simp] theorem Mem.setVptr_vptr :
    (m.setVptr a v b).ccdynVptr = if b = a then v else (m b).ccdynVptr := by
  unfold Mem.setVptr; split <;> simp_all

theorem Header.eq_of_fields {a b : Header} (h₁ : a.next = b.next) (h₂ : a.prev = b.prev)
    (h₃ : a.ccdynVptr = b.ccdynVptr) (h₄ : a.linkedListLock = b.linkedListLock) : a = b := by
  cases a; cases b; simp_all

/-- One store to a header field, as the code makes it through `Cell::set`. -/
inductive Write where
  | next (a : Addr) (p : Option Addr)
  | prev (a : Addr) (p : Option Addr)
  | vptr (a : Addr) (v : Nat)
  deriving DecidableEq, Repr

def Write.apply : Write → Mem → Mem
  | .next a p, m => m.setNext a p
  | .prev a p, m => m.setPrev a p
  | .vptr a v, m => m.setVptr a v

def applyAll (ws : List Write) (m : Mem) : Mem := ws.foldl (fun m w => w.apply m) m

@[simp] theorem applyAll_nil : applyAll [] m = m := rfl

@[simp] theorem applyAll_cons : applyAll (w :: ws) m = applyAll ws (w.apply m) := rfl

@[simp] theorem Write.apply_lock (w : Write) :
    (w.apply m b).linkedListLock = (m b).linkedListLock := by
  cases w <;> simp [Write.apply]

@[simp] theorem applyAll_lock : (applyAll ws m b).linkedListLock = (m b).linkedListLock := by
  induction ws generalizing m <;> simp_all

def Linked (m : Mem) (a b : Addr) : Prop := (m a).next = some b ∧ (m b).prev = some a

/-- The list through the sentinel `s` is `L`, linked both ways in order; the rest is unlinked. -/
structure Represents (m : Mem) (s : Addr) (L : List Addr) : Prop where
  chain : (s :: L ++ [s]).Chain' (Linked m)
  nodup : (s :: L).Nodup
  unlinked : ∀ a, a ∉ s :: L → (m a).next = none

theorem chain_frame {l : List Addr} (h : l.Chain' (Linked m))
    (hn : ∀ a ∈ l.dropLast, (m' a).next = (m a).next)
    (hp : ∀ a ∈ l.tail, (m' a).prev = (m a).prev) : l.Chain' (Linked m') := by
  induction l with
  | nil => trivial
  | cons a l ih =>
    cases l with
    | nil => exact List.chain'_singleton a
    | cons b l =>
      rw [List.chain'_cons] at h ⊢
      refine ⟨⟨?_, ?_⟩, ih h.2 ?_ ?_⟩
      · rw [hn a (by simp)]; exact h.1.1
      · rw [hp b (by simp)]; exact h.1.2
      · intro x hx; exact hn x (by simp_all [List.dropLast_cons₂])
      · intro x hx; exact hp x (List.mem_of_mem_tail hx)

theorem chain'_succ_mem {R : α → α → Prop} {b : α} :
    ∀ {l : List α}, (l ++ [b]).Chain' R → ∀ x ∈ l, ∃ y ∈ l ++ [b], R x y
  | [], _, _, hx => by simp at hx
  | [a], h, x, hx => by
    rw [List.mem_singleton.1 hx]
    exact ⟨b, by simp, List.chain'_pair.1 h⟩
  | a :: c :: l, h, x, hx => by
    rw [List.cons_append, List.cons_append, List.chain'_cons, ← List.cons_append] at h
    rcases List.mem_cons.1 hx with rfl | hx
    · exact ⟨c, by simp, h.1⟩
    · obtain ⟨y, hy, hr⟩ := chain'_succ_mem h.2 x hx
      exact ⟨y, List.mem_cons_of_mem _ hy, hr⟩

theorem chain'_exists_pred {R : α → α → Prop} {b : α} {l : List α} (h : (b :: l).Chain' R) :
    ∀ y ∈ l, ∃ x, R x y := by
  have h' := (@List.chain'_reverse _ (flip R) _).2 h
  rw [List.reverse_cons] at h'
  intro y hy
  obtain ⟨x, -, hx⟩ := chain'_succ_mem h' y (List.mem_reverse.2 hy)
  exact ⟨x, hx⟩

theorem Represents.exists_next (h : Represents m s L) (hx : x ∈ s :: L) : ∃ y, Linked m x y :=
  let ⟨y, _, hy⟩ := chain'_succ_mem (b := s) (by simpa using h.chain) x hx
  ⟨y, hy⟩

theorem Represents.exists_prev (h : Represents m s L) (hx : x ∈ s :: L) : ∃ y, Linked m y x := by
  refine chain'_exists_pred h.chain x ?_
  rcases List.mem_cons.1 hx with rfl | hx <;> simp_all

end GcModule
