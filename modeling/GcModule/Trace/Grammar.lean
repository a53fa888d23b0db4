import Mathlib.Data.List.Basic

namespace GcModule
set_option autoImplicit true

inductive Wrapper where
  | arc | rc | weak | fnPtr | phantomData | joinHandle | localKey
  deriving DecidableEq, Repr

inductive DynBox where
  | plain | send | sendSync
  deriving DecidableEq, Repr

inductive Seq where
  | vec | vecDeque | linkedList
  deriving DecidableEq, Repr

inductive MapKind where
  | btreeMap | hashMap
  deriving DecidableEq, Repr

/-- The types `trace_impls.rs` implements `Trace` for; `cow t` is `Cow<'static, T>` where
`T::Owned = t`, and `tuple` the `trace_fields!` tuples, admitted at every arity. -/
inductive Ty where
  | acyclic (name : String)
  | wrapper (w : Wrapper) (t : Ty)
  | dynBox (k : DynBox)
  | box (t : Ty)
  | cell (t : Ty)
  | refCell (t : Ty)
  | onceCell (t : Ty)
  | mutex (t : Ty)
  | rwLock (t : Ty)
  | cow (t : Ty)
  | option (t : Ty)
  | result (t u : Ty)
  | seq (c : Seq) (t : Ty)
  | map (c : MapKind) (k v : Ty)
  | tuple (ts : List Ty)
  deriving Repr

/-- `Trace::is_type_tracked` of each impl; a tuple stops at its first tracked field. -/
def Ty.isTypeTracked : Ty → Bool
  | .acyclic _ | .wrapper _ _ => false
  | .dynBox _ => true
  | .box t | .cell t | .refCell t | .onceCell t | .mutex t | .rwLock t | .cow t
  | .option t | .seq _ t => t.isTypeTracked
  | .result t u | .map _ t u => t.isTypeTracked || u.isTypeTracked
  | .tuple ts => anyTracked ts
where anyTracked : List Ty → Bool
  | [] => false
  | t :: ts => if t.isTypeTracked then true else anyTracked ts

@[simp] theorem Ty.isTypeTracked_tuple_nil : (Ty.tuple []).isTypeTracked = false := rfl

@[simp] theorem Ty.isTypeTracked_tuple_cons :
    (Ty.tuple (t :: ts)).isTypeTracked = (t.isTypeTracked || (Ty.tuple ts).isTypeTracked) := by
  simp only [Ty.isTypeTracked, Ty.isTypeTracked.anyTracked]
  cases t.isTypeTracked <;> rfl

/-- Values with the state the impls read: `RefCell` borrows, failing `try_lock` or `try_write`,
borrowed `Cow`s. A box holds the trait object `o : α`. -/
inductive Val (α : Type) : Ty → Type where
  | acyclic : Val α (.acyclic n)
  | wrapperEmpty : Val α (.wrapper w t)
  | wrapper (v : Val α t) : Val α (.wrapper w t)
  | dynBox (o : α) : Val α (.dynBox k)
  | box (v : Val α t) : Val α (.box t)
  | cell (v : Val α t) : Val α (.cell t)
  | refCell (borrowedMut : Bool) (v : Val α t) : Val α (.refCell t)
  | onceCellEmpty : Val α (.onceCell t)
  | onceCell (v : Val α t) : Val α (.onceCell t)
  | mutex (held : Bool) (v : Val α t) : Val α (.mutex t)
  | rwLock (held : Bool) (v : Val α t) : Val α (.rwLock t)
  | borrowed (v : Val α t) : Val α (.cow t)
  | owned (v : Val α t) : Val α (.cow t)
  | none : Val α (.option t)
  | some (v : Val α t) : Val α (.option t)
  | ok (v : Val α t) : Val α (.result t u)
  | err (v : Val α u) : Val α (.result t u)
  | nil : Val α (.seq c t)
  | cons (x : Val α t) (xs : Val α (.seq c t)) : Val α (.seq c t)
  | mapNil : Val α (.map c k v)
  | mapCons (key : Val α k) (value : Val α v) (rest : Val α (.map c k v)) : Val α (.map c k v)
  | tupleNil : Val α (.tuple [])
  | tupleCons (x : Val α t) (xs : Val α (.tuple ts)) : Val α (.tuple (t :: ts))

/-- `Trace::trace` of each impl, as the boxed trait objects whose `trace` it calls, in order.
Acyclic leaves keep the trait's default `trace`, not among the sources, which reports nothing. -/
def Val.trace : Val α t → List α
  | .acyclic | .wrapperEmpty | .wrapper _ => []
  | .dynBox o => [o]
  | .box v | .cell v => v.trace
  | .refCell borrowedMut v => if borrowedMut then [] else v.trace
  | .onceCellEmpty => []
  | .onceCell v => v.trace
  | .mutex held v | .rwLock held v => if held then [] else v.trace
  | .borrowed _ => []
  | .owned v => v.trace
  | .none => []
  | .some v | .ok v | .err v => v.trace
  | .nil => []
  | .cons x xs => x.trace ++ xs.trace
  | .mapNil => []
  | .mapCons key value rest => key.trace ++ value.trace ++ rest.trace
  | .tupleNil => []
  | .tupleCons x xs => x.trace ++ xs.trace

example : (Val.cons (.refCell false (.dynBox 1))
    (.cons (.refCell true (.dynBox 2)) (.cons (.refCell false (.dynBox 3)) .nil))
    : Val Nat (.seq .vec (.refCell (.dynBox .plain)))).trace = [1, 3] := rfl

/-- A `trace_fields!` field: its type, and the instantiated parameter written after `:`, if any. -/
structure Field where
  ty : Ty
  param : Option Ty
  deriving Repr

/-- The generated `is_type_tracked`: `true` at the first annotation that is tracked. -/
def traceFieldsIsTypeTracked : List Field → Bool
  | [] => false
  | ⟨_, some tp⟩ :: fs => if tp.isTypeTracked then true else traceFieldsIsTypeTracked fs
  | ⟨_, none⟩ :: fs => traceFieldsIsTypeTracked fs

def traceFieldsTrace (fs : List Field) (v : Val α (.tuple (fs.map Field.ty))) : List α := v.trace

theorem isTypeTracked_tuple_eq_traceFields (ts : List Ty) :
    (Ty.tuple ts).isTypeTracked = traceFieldsIsTypeTracked (ts.map fun t => ⟨t, some t⟩) := by
  induction ts with
  | nil => rfl
  | cons t ts ih =>
    rw [Ty.isTypeTracked_tuple_cons, ih, List.map_cons, traceFieldsIsTypeTracked]
    cases t.isTypeTracked <;> rfl

/-- The doc example `Z { 0 }` over `Box<dyn Trace>` is untracked, yet its `trace` reaches a box. -/
theorem trace_fields_box_field_untracked :
    traceFieldsIsTypeTracked [⟨.dynBox .plain, none⟩] = false ∧
    (Ty.dynBox .plain).isTypeTracked = true ∧
    traceFieldsTrace [⟨.dynBox .plain, none⟩] (.tupleCons (.dynBox 7) .tupleNil) = [7] :=
  ⟨rfl, rfl, rfl⟩

end GcModule
