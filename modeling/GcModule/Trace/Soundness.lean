import GcModule.Trace.Grammar
import Mathlib.Data.List.Nodup

namespace GcModule
set_option autoImplicit true

/-- `t` holds a trait-object box that no opaque wrapper hides. -/
inductive Ty.HasBox : Ty → Prop
  | dynBox : HasBox (.dynBox k)
  | box : HasBox t → HasBox (.box t)
  | cell : HasBox t → HasBox (.cell t)
  | refCell : HasBox t → HasBox (.refCell t)
  | onceCell : HasBox t → HasBox (.onceCell t)
  | mutex : HasBox t → HasBox (.mutex t)
  | rwLock : HasBox t → HasBox (.rwLock t)
  | cow : HasBox t → HasBox (.cow t)
  | option : HasBox t → HasBox (.option t)
  | resultOk : HasBox t → HasBox (.result t u)
  | resultErr : HasBox u → HasBox (.result t u)
  | seq : HasBox t → HasBox (.seq c t)
  | mapKey : HasBox k → HasBox (.map c k v)
  | mapValue : HasBox v → HasBox (.map c k v)
  | tupleHead : HasBox t → HasBox (.tuple (t :: ts))
  | tupleTail : HasBox (.tuple ts) → HasBox (.tuple (t :: ts))

mutual
theorem Ty.hasBox_of_isTypeTracked : (t : Ty) → t.isTypeTracked = true → t.HasBox
  | .acyclic _, h | .wrapper _ _, h => by simp [Ty.isTypeTracked] at h
  | .dynBox _, _ => .dynBox
  | .box t, h => .box (hasBox_of_isTypeTracked t h)
  | .cell t, h => .cell (hasBox_of_isTypeTracked t h)
  | .refCell t, h => .refCell (hasBox_of_isTypeTracked t h)
  | .onceCell t, h => .onceCell (hasBox_of_isTypeTracked t h)
  | .mutex t, h => .mutex (hasBox_of_isTypeTracked t h)
  | .rwLock t, h => .rwLock (hasBox_of_isTypeTracked t h)
  | .cow t, h => .cow (hasBox_of_isTypeTracked t h)
  | .option t, h => .option (hasBox_of_isTypeTracked t h)
  | .seq _ t, h => .seq (hasBox_of_isTypeTracked t h)
  | .result t u, h => by
    rcases Bool.or_eq_true_iff.1 h with h | h
    · exact .resultOk (hasBox_of_isTypeTracked t h)
    · exact .resultErr (hasBox_of_isTypeTracked u h)
  | .map _ k v, h => by
    rcases Bool.or_eq_true_iff.1 h with h | h
    · exact .mapKey (hasBox_of_isTypeTracked k h)
    · exact .mapValue (hasBox_of_isTypeTracked v h)
  | .tuple ts, h => hasBox_tuple_of_isTypeTracked ts h
theorem Ty.hasBox_tuple_of_isTypeTracked :
    (ts : List Ty) → (Ty.tuple ts).isTypeTracked = true → (Ty.tuple ts).HasBox
  | [], h => by simp at h
  | t :: ts, h => by
    rcases Bool.or_eq_true_iff.1 (Ty.isTypeTracked_tuple_cons ▸ h) with h | h
    · exact .tupleHead (hasBox_of_isTypeTracked t h)
    · exact .tupleTail (hasBox_tuple_of_isTypeTracked ts h)
end

theorem Val.trace_eq_nil (v : Val α t) (h : t.isTypeTracked = false) : v.trace = [] := by
  induction v with
  | tupleCons x xs ihx ihxs =>
    simp only [Ty.isTypeTracked_tuple_cons, Bool.or_eq_false_iff] at h
    simp [Val.trace, ihx h.1, ihxs h.2]
  | _ => simp_all [Val.trace, Ty.isTypeTracked]

theorem Ty.HasBox.isTypeTracked {t : Ty} (h : t.HasBox) : t.isTypeTracked = true := by
  induction h <;> simp_all [Ty.isTypeTracked, Ty.isTypeTracked.anyTracked]

abbrev Path := List Nat

/-- The trait object `o` is boxed at `p` in `v`, behind no opaque wrapper, held lock or borrow. -/
inductive Val.LiveBox {α : Type} : Val α t → Path → α → Prop
  | dynBox : LiveBox (.dynBox o : Val α (.dynBox k)) [] o
  | box : LiveBox v p o → LiveBox (.box v) (0 :: p) o
  | cell : LiveBox v p o → LiveBox (.cell v) (0 :: p) o
  | refCell : LiveBox v p o → LiveBox (.refCell false v) (0 :: p) o
  | onceCell : LiveBox v p o → LiveBox (.onceCell v) (0 :: p) o
  | mutex : LiveBox v p o → LiveBox (.mutex false v) (0 :: p) o
  | rwLock : LiveBox v p o → LiveBox (.rwLock false v) (0 :: p) o
  | owned : LiveBox v p o → LiveBox (.owned v) (0 :: p) o
  | some : LiveBox v p o → LiveBox (.some v) (0 :: p) o
  | ok {v : Val α t} : LiveBox v p o → LiveBox (.ok v : Val α (.result t u)) (0 :: p) o
  | err {v : Val α u} : LiveBox v p o → LiveBox (.err v : Val α (.result t u)) (0 :: p) o
  | consHead : LiveBox x p o → LiveBox (.cons x xs) (0 :: p) o
  | consTail : LiveBox xs p o → LiveBox (.cons x xs) (1 :: p) o
  | mapKey : LiveBox key p o → LiveBox (.mapCons key value rest) (0 :: p) o
  | mapValue : LiveBox value p o → LiveBox (.mapCons key value rest) (1 :: p) o
  | mapRest : LiveBox rest p o → LiveBox (.mapCons key value rest) (2 :: p) o
  | tupleHead : LiveBox x p o → LiveBox (.tupleCons x xs) (0 :: p) o
  | tupleTail : LiveBox xs p o → LiveBox (.tupleCons x xs) (1 :: p) o

def under (i : Nat) (x : Path × α) : Path × α := (i :: x.1, x.2)

@[simp] theorem under_fst : (under i x).1 = i :: x.1 := rfl

@[simp] theorem under_snd : (under i x).2 = x.2 := rfl

def Val.tracePaths : Val α t → List (Path × α)
  | .acyclic | .wrapperEmpty | .wrapper _ => []
  | .dynBox o => [([], o)]
  | .box v | .cell v | .onceCell v | .owned v | .some v | .ok v | .err v =>
    v.tracePaths.map (under 0)
  | .refCell b v | .mutex b v | .rwLock b v => if b then [] else v.tracePaths.map (under 0)
  | .onceCellEmpty | .borrowed _ | .none | .nil | .mapNil | .tupleNil => []
  | .cons x xs | .tupleCons x xs => x.tracePaths.map (under 0) ++ xs.tracePaths.map (under 1)
  | .mapCons key value rest =>
    key.tracePaths.map (under 0) ++ value.tracePaths.map (under 1) ++ rest.tracePaths.map (under 2)

theorem Val.tracePaths_snd (v : Val α t) : v.tracePaths.map Prod.snd = v.trace := by
  induction v <;> simp_all [Val.tracePaths, Val.trace, apply_ite, Function.comp_def]

@[simp] theorem mem_map_under {l : List (Path × α)} :
    (p, o) ∈ l.map (under i) ↔ ∃ q, p = i :: q ∧ (q, o) ∈ l := by
  simp only [List.mem_map, under, Prod.mk.injEq, Prod.exists]
  constructor
  · rintro ⟨q, o', hq, rfl, rfl⟩; exact ⟨q, rfl, hq⟩
  · rintro ⟨q, rfl, hq⟩; exact ⟨q, o, hq, rfl, rfl⟩

theorem nodup_fst_under {l : List (Path × α)} (h : (l.map Prod.fst).Nodup) :
    ((l.map (under i)).map Prod.fst).Nodup := by
  have h' := List.Nodup.map (List.cons_injective (a := i)) h
  rw [List.map_map] at h' ⊢
  exact h'

theorem disjoint_fst_under {l l' : List (Path × α)} (hij : i ≠ j) :
    ((l.map (under i)).map Prod.fst).Disjoint ((l'.map (under j)).map Prod.fst) := by
  intro x hx hx'
  simp only [List.map_map, List.mem_map, Function.comp_apply, under_fst] at hx hx'
  obtain ⟨a, -, rfl⟩ := hx
  obtain ⟨b, -, hb⟩ := hx'
  exact hij (List.cons.inj hb).1.symm

theorem Val.tracePaths_nodup (v : Val α t) : (v.tracePaths.map Prod.fst).Nodup := by
  induction v with
  | refCell b _ ih | mutex b _ ih | rwLock b _ ih =>
    cases b
    · exact nodup_fst_under ih
    · exact List.nodup_nil
  | cons _ _ ihx ihxs | tupleCons _ _ ihx ihxs =>
    rw [Val.tracePaths, List.map_append]
    exact List.nodup_append.2 ⟨nodup_fst_under ihx, nodup_fst_under ihxs, disjoint_fst_under (by decide)⟩
  | mapCons _ _ _ ihk ihv ihr =>
    rw [Val.tracePaths, List.map_append, List.map_append]
    refine List.nodup_append.2 ⟨List.nodup_append.2 ⟨nodup_fst_under ihk, nodup_fst_under ihv,
      disjoint_fst_under (by decide)⟩, nodup_fst_under ihr, ?_⟩
    exact List.disjoint_append_left.2 ⟨disjoint_fst_under (by decide), disjoint_fst_under (by decide)⟩
  | _ => first | exact List.nodup_nil | exact List.nodup_singleton _ | exact nodup_fst_under ‹_›

theorem Val.LiveBox.mem_tracePaths {v : Val α t} (h : v.LiveBox p o) : (p, o) ∈ v.tracePaths := by
  induction h <;> simp only [Val.tracePaths, List.mem_append, mem_map_under, Bool.false_eq_true,
    ↓reduceIte] <;> simp_all

theorem Val.liveBox_of_mem_tracePaths (v : Val α t) (h : (p, o) ∈ v.tracePaths) :
    v.LiveBox p o := by
  induction v generalizing p with
  | dynBox o' =>
    obtain ⟨rfl, rfl⟩ := List.mem_singleton.1 h
    exact .dynBox
  | refCell b _ ih | mutex b _ ih | rwLock b _ ih =>
    cases b <;> simp only [Val.tracePaths, mem_map_under, Bool.false_eq_true, ↓reduceIte,
      List.not_mem_nil] at h
    obtain ⟨q, rfl, hq⟩ := h
    constructor
    exact ih hq
  | cons _ _ ihx ihxs | tupleCons _ _ ihx ihxs =>
    simp only [Val.tracePaths, List.mem_append, mem_map_under] at h
    rcases h with ⟨q, rfl, hq⟩ | ⟨q, rfl, hq⟩ <;> constructor
    · exact ihx hq
    · exact ihxs hq
  | mapCons _ _ _ ihk ihv ihr =>
    simp only [Val.tracePaths, List.mem_append, mem_map_under] at h
    rcases h with (⟨q, rfl, hq⟩ | ⟨q, rfl, hq⟩) | ⟨q, rfl, hq⟩ <;> constructor
    · exact ihk hq
    · exact ihv hq
    · exact ihr hq
  | box _ ih | cell _ ih | onceCell _ ih | owned _ ih | some _ ih | ok _ ih | err _ ih =>
    simp only [Val.tracePaths, mem_map_under] at h
    obtain ⟨q, rfl, hq⟩ := h
    constructor
    exact ih hq
  | _ => simp [Val.tracePaths] at h

/-- `trace` calls the `trace` of each live box exactly once, and of no other box. -/
theorem trace_visits_each_live_box_once (v : Val α t) :
    ∃ l : List (Path × α), l.map Prod.snd = v.trace ∧ (l.map Prod.fst).Nodup ∧
      ∀ p o, (p, o) ∈ l ↔ v.LiveBox p o :=
  ⟨v.tracePaths, v.tracePaths_snd, v.tracePaths_nodup,
    fun _ _ => ⟨v.liveBox_of_mem_tracePaths, Val.LiveBox.mem_tracePaths⟩⟩

theorem Ty.isTypeTracked_tuple_eq_false :
    (Ty.tuple ts).isTypeTracked = false ↔ ∀ t ∈ ts, t.isTypeTracked = false := by
  induction ts with
  | nil => simp
  | cons t ts ih => simp [ih]

theorem traceFieldsIsTypeTracked_eq_true :
    traceFieldsIsTypeTracked fs = true ↔
      ∃ f ∈ fs, ∃ tp, f.param = some tp ∧ tp.isTypeTracked = true := by
  induction fs with
  | nil => simp [traceFieldsIsTypeTracked]
  | cons f fs ih =>
    obtain ⟨ty, _ | tp⟩ := f
    · simp [traceFieldsIsTypeTracked, ih]
    · by_cases htp : tp.isTypeTracked <;> simp [traceFieldsIsTypeTracked, htp, ih]

/-- The generated `is_type_tracked` is the OR of the annotations; sound if they cover the fields. -/
theorem traceFields_isTypeTracked_sound (fs : List Field) :
    (traceFieldsIsTypeTracked fs = true ↔
      ∃ f ∈ fs, ∃ tp, f.param = some tp ∧ tp.isTypeTracked = true) ∧
    (((∃ f ∈ fs, f.ty.isTypeTracked = true) →
        ∃ f ∈ fs, ∃ tp, f.param = some tp ∧ tp.isTypeTracked = true) →
      traceFieldsIsTypeTracked fs = false → ∀ v, traceFieldsTrace fs v = ([] : List α)) := by
  refine ⟨traceFieldsIsTypeTracked_eq_true, fun hcov hf v => v.trace_eq_nil ?_⟩
  rw [Ty.isTypeTracked_tuple_eq_false, List.forall_mem_map]
  rw [← Bool.not_eq_true, traceFieldsIsTypeTracked_eq_true] at hf
  exact fun f hmem => Bool.eq_false_iff.2 fun ht => hf (hcov ⟨f, hmem, ht⟩)

end GcModule
